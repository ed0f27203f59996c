import UnderFlow.Server.Listings
import UnderFlow.Server.Handshake
import UnderFlow.Client.Showing

/-!
# The clerks of the market

The threads that spawn, sell, age and synchronise listings as clerks of a bulletin.

* `activeIds` : the ids on the market, and what the functions of `market.c` do to them.
* `Thread.clerk` : the listings and connections a thread has in hand.
* `board_step` : what a step does to the market, to the hand of its thread, and which packet tells
  of it.
-/

namespace UnderFlow

variable {s s' : Shared} {c : Choice} {th th' : Thread} {a : Action Thread} {sock : ℕ} {key : Key}
  {m m' : Market} {d : ℤ}

/-! ### The ids on the market -/

/-- The ids on the market. -/
def activeIds (m : Market) : List ℤ := (m.slots.filter (·.active)).map (·.docId)

theorem activeIds_marketInit : activeIds marketInit = [] := by decide

theorem activeIds_add {now r : ℕ} {t : Tags} {p : ℤ} {n : Bytes}
    (h : marketAdd m now r d t p n = some m') : (activeIds m').Perm (d :: activeIds m) := by
  obtain ⟨⟨slot, slots⟩, hu, rfl⟩ := Option.map_eq_some_iff.1 h
  obtain ⟨l₁, l₂, hm, rfl, hfree, -⟩ := updateFirst_eq_some.1 hu
  have hfree : slot.active = false := by simpa using hfree
  simp [activeIds, hm, hfree]

theorem activeIds_take {slot : MarketSlot} {slots : List MarketSlot}
    (h : updateFirst (·.lists d) (fun s => { s with active := false }) m.slots =
      some (slot, slots)) :
    (activeIds m).Perm (d :: activeIds { m with slots := slots }) := by
  obtain ⟨l₁, l₂, hm, rfl, hlists, -⟩ := updateFirst_eq_some.1 h
  obtain ⟨hactive, rfl⟩ : slot.active = true ∧ slot.docId = d := by
    simpa [MarketSlot.lists] using hlists
  simp [activeIds, hm, hactive]

/-- What has aged leaves the market. -/
theorem activeIds_aged (m : Market) (now : ℕ) : (activeIds m).Perm
    ((m.slots.filter (·.expired now)).map (·.docId) ++
      activeIds { m with
        slots := m.slots.map fun s => if s.expired now then { s with active := false }
          else s }) := by
  simp only [activeIds]
  induction m.slots with
  | nil => exact .refl _
  | cons slot slots ih =>
    by_cases hexp : slot.expired now = true
    · have hactive : slot.active = true := by
        simp only [MarketSlot.expired, Bool.and_eq_true] at hexp
        exact hexp.1.1
      simpa [hexp, hactive] using ih
    · by_cases hactive : slot.active = true
      · simp only [List.filter_cons, hactive, hexp, List.map_cons, ↓reduceIte, Bool.false_eq_true]
        exact (ih.cons slot.docId).trans List.perm_middle.symm
      · simpa [hexp, hactive] using ih

theorem activeIds_despawn (hlen : m.slots.length ≤ maxMarketSlots) (now : ℕ) :
    (activeIds m).Perm ((marketDespawnAged m now maxMarketSlots).1 ++
      activeIds (marketDespawnAged m now maxMarketSlots).2) := by
  have hle : ((m.slots.filter (·.expired now)).map (·.docId)).length ≤ maxMarketSlots := by
    rw [List.length_map]
    exact (List.length_filter_le _ _).trans hlen
  rw [marketDespawnAged, List.take_of_length_le hle]
  exact activeIds_aged m now

theorem activeIds_freeze (m : Market) (t : Tags) : activeIds (freezeTags m t) = activeIds m := by
  simp only [activeIds, freezeTags]
  induction m.slots with
  | nil => rfl
  | cons slot slots ih =>
    rw [List.map_cons]
    split_ifs with h <;> by_cases hactive : slot.active = true <;> simp_all

theorem activeIds_unfreeze (m : Market) (t : Tags) :
    activeIds (unfreezeTags m t) = activeIds m := by
  simp only [activeIds, unfreezeTags]
  induction m.slots with
  | nil => rfl
  | cons slot slots ih =>
    rw [List.map_cons]
    split_ifs with h <;> by_cases hactive : slot.active = true <;> simp_all

/-- A snapshot has all listings. -/
theorem snapshot_ids (hlen : m.slots.length ≤ maxMarketSlots) :
    (marketSnapshot m maxMarketSlots).map (·.docId) = activeIds m := by
  rw [marketSnapshot, List.take_of_length_le ((List.length_filter_le _ _).trans hlen), activeIds]

/-! ### What a thread has in hand -/

/-- The ids of `seed_market_and_npc`. -/
def seedIds : List ℤ := seedDocs.map (·.docId)

/-- The listings still to be seeded. -/
def Seed.making (pc : Seed) : List ℤ := pc.docs.map (·.docId)

/-- The listing being made. -/
def Spawn.making : Spawn → List ℤ
  | .price _ d | .name _ d _ => [d]
  | .write doc | .add doc => [doc.docId]
  | _ => []

/-- The listing that is on the market and not announced. -/
def Spawn.announcing : Spawn → List ℤ
  | .announce doc => [doc.docId]
  | _ => []

/-- The listing is off the market, and its removal is not announced. -/
def Buy.taken : Buy → Bool
  | .stat _ _ _ | .move _ _ _ | .rollback _ | .charge _ _ _ | .reply _ _ | .announce => true
  | _ => false

/-- The aged listings whose removal is not announced. -/
def AgeMarket.removing : AgeMarket → List ℤ
  | .remove docId todo | .announce docId todo => docId :: todo
  | .despawn => []

/-- The connection that waits for its snapshot of the market. -/
def Login.greeting (sock : ℕ) : Login → List ℕ
  | .marketSnapshot _ => [sock]
  | _ => []

/-- What is left to be sent of a snapshot of the market. -/
def Login.sending (sock : ℕ) : Login → List (ℕ × ℤ)
  | .marketSend _ slot todo => (slot :: todo).map fun slot => (sock, slot.docId)
  | _ => []

/-- What a command is doing to the board. -/
def Command.clerk : Command → Clerk ℤ ℕ
  | .buy docId pc => { removing := if pc.taken then [docId] else [] }
  | _ => {}

/-- What the event thread is doing to the board. -/
def Event.clerk : Event → Clerk ℤ ℕ
  | .ageMarket pc => { removing := pc.removing }
  | .spawn pc => { making := pc.making, announcing := pc.announcing }
  | _ => {}

/-- The listings and connections a thread has in hand. -/
def Thread.clerk : Thread → Clerk ℤ ℕ
  | .main .marketInit | .main .npcInit => { making := seedIds }
  | .main (.seed pc) => { making := pc.making }
  | .login sock pc => { greeting := pc.greeting sock, sending := pc.sending sock }
  | .session _ _ pc => pc.clerk
  | .event _ pc => pc.clerk
  | _ => {}

/-! ### What a step tells -/

/-- A login is accepted. -/
def Packet.greets : Packet → Bool
  | .loginOk _ _ _ => true
  | _ => false

/-- The packet an operation writes. -/
def Op.packet : Op → Option Packet
  | .packetSend _ pkt | .broadcast pkt | .unicastToKey _ pkt => some pkt
  | _ => none

/-- Nobody is told about a listing, and no login and no connection is accepted. -/
def Op.Silent (o : Op) : Prop :=
  o ≠ .accept ∧ ∀ pkt ∈ o.packet, pkt.notice = none ∧ pkt.greets = false

/-- Ordinary operations tell nothing about listings. -/
theorem silent_of_ordinary {o : Op} (h : o.ordinary = true) : o.Silent := by
  refine ⟨fun ho => ?_, fun pkt hpkt => ?_⟩
  · rw [ho] at h
    cases h
  · have hord : pkt.ordinary = true := by cases o <;> cases hpkt <;> exact h
    cases pkt <;> first | exact ⟨rfl, rfl⟩ | cases hord

/-- A command other than a purchase tells nothing about listings. -/
theorem clientLoop_silent {pc : Command} (h : ∀ docId q, pc ≠ .buy docId q) :
    (clientLoop sock key pc).op.Silent := by
  cases pc with
  | buy docId q => exact absurd rfl (h docId q)
  | sell n ds q =>
    cases q <;>
      simp [Op.Silent, clientLoop, Action.map, handleSell, Op.packet, Packet.notice, Packet.greets]
  | selfRaid q =>
    cases q <;>
      simp [Op.Silent, clientLoop, Action.map, fireSelfPoliceRaid, Op.packet, Packet.notice,
        Packet.greets]
  | _ => exact silent_of_ordinary (clientLoop_ordinary rfl)

/-- Only the spawning and the ageing of listings tell about them, in the event thread. -/
theorem eventThreadFunc_silent {v : EventVars} {pc : Event} (hspawn : ∀ q, pc ≠ .spawn q)
    (hage : ∀ q, pc ≠ .ageMarket q) : (eventThreadFunc v pc).op.Silent := by
  cases pc with
  | spawn q => exact absurd rfl (hspawn q)
  | ageMarket q => exact absurd rfl (hage q)
  | raid q =>
    cases q <;>
      simp [Op.Silent, eventThreadFunc, Action.map, firePeriodicPoliceRaid, Op.packet,
        Packet.notice, Packet.greets]
  | _ => exact silent_of_ordinary (eventThreadFunc_ordinary rfl)

/-! ### Steps -/

/-- What a step does to the market and to the hand of its thread, and which packet tells of it. -/
inductive BoardStep (s : Shared) (th : Thread) (o : Op) (s' : Shared) (th' : Thread) : Prop
  | quiet (hids : activeIds s'.market = activeIds s.market)
      (hcount : s'.docIdCounter = s.docIdCounter) (hclerk : th'.clerk = th.clerk) (ho : o.Silent)
  | accept (hs : s'.market = s.market) (hcount : s'.docIdCounter = s.docIdCounter)
      (hclerk : th'.clerk = th.clerk) (ho : o = .accept)
  | allot (hids : activeIds s'.market = activeIds s.market) (ho : o = .nextDocId)
      (hcount : s'.docIdCounter = s.docIdCounter + 1)
      (hclerk : th'.clerk = { th.clerk with making := (s.docIdCounter + 1) :: th.clerk.making })
  | drop (ids : List ℤ) (hids : activeIds s'.market = activeIds s.market)
      (hcount : s'.docIdCounter = s.docIdCounter) (hsub : ids.Sublist th.clerk.making)
      (hclerk : th'.clerk = { th.clerk with making := ids }) (ho : o.Silent)
  | place (d : ℤ) (ids : List ℤ) (hids : (activeIds s'.market).Perm (d :: activeIds s.market))
      (hcount : s'.docIdCounter = s.docIdCounter) (hmaking : th.clerk.making = d :: ids)
      (hclerk : th'.clerk = { th.clerk with making := ids }) (ho : o.Silent)
  | list (d : ℤ) (ids : List ℤ) (hids : (activeIds s'.market).Perm (d :: activeIds s.market))
      (hcount : s'.docIdCounter = s.docIdCounter) (hmaking : th.clerk.making = d :: ids)
      (hclerk : th'.clerk = { th.clerk with
        making := ids
        announcing := d :: th.clerk.announcing }) (ho : o.Silent)
  | take (ids : List ℤ) (hids : (activeIds s.market).Perm (ids ++ activeIds s'.market))
      (hcount : s'.docIdCounter = s.docIdCounter)
      (hclerk : th'.clerk = { th.clerk with removing := ids ++ th.clerk.removing }) (ho : o.Silent)
  | relist (d : ℤ) (ids : List ℤ) (hids : (activeIds s'.market).Perm (d :: activeIds s.market))
      (hcount : s'.docIdCounter = s.docIdCounter) (hremoving : th.clerk.removing = d :: ids)
      (hclerk : th'.clerk = { th.clerk with removing := ids }) (ho : o.Silent)
  | announce (pkt : Packet) (d : ℤ) (ids : List ℤ) (hs : s' = s) (ho : o = .broadcast pkt)
      (hn : pkt.notice = some (.shown d)) (hannouncing : th.clerk.announcing = d :: ids)
      (hclerk : th'.clerk = { th.clerk with announcing := ids })
  | retract (pkt : Packet) (d : ℤ) (ids : List ℤ) (hs : s' = s) (ho : o = .broadcast pkt)
      (hn : pkt.notice = some (.removed d)) (hremoving : th.clerk.removing = d :: ids)
      (hclerk : th'.clerk = { th.clerk with removing := ids })
  | greet (sock : ℕ) (pkt : Packet) (hs : s' = s) (ho : o = .packetSend sock pkt)
      (hg : pkt.greets = true) (hidle : th.clerk = {}) (hclerk : th'.clerk = { th.clerk with
        greeting := sock :: th.clerk.greeting })
  | snapshot (sock : ℕ) (socks : List ℕ) (hs : s' = s) (ho : o = .marketSnapshot)
      (hgreeting : th.clerk.greeting = sock :: socks)
      (hclerk : th'.clerk = { th.clerk with
        greeting := socks
        sending := (activeIds s.market).map (Prod.mk sock) ++ th.clerk.sending })
  | send (sock : ℕ) (pkt : Packet) (d : ℤ) (todo : List (ℕ × ℤ)) (hs : s' = s)
      (ho : o = .packetSend sock pkt) (hn : pkt.notice = some (.shown d))
      (hsending : th.clerk.sending = (sock, d) :: todo)
      (hclerk : th'.clerk = { th.clerk with sending := todo })

/-- The thread puts a listing back. -/
def Thread.relists : Thread → Bool
  | .session _ _ (.buy _ (.rollback _)) => true
  | _ => false

/-- The thread is inside a reset. -/
def Thread.resets : Thread → Bool
  | .roundEndTimer (.reset _) => true
  | _ => false

/-- The slot a buyer works with is that of its document. -/
def Thread.Bought : Thread → Prop
  | .session _ _ (.buy d pc) => ∀ slot, pc.slot = some slot → slot.docId = d
  | _ => True

theorem silent_of_none {o : Op} (hacc : o ≠ .accept) (h : o.packet = none) : o.Silent := by
  refine ⟨hacc, fun pkt hpkt => ?_⟩
  rw [h] at hpkt
  cases hpkt

/-- A step that changes neither the market nor a hand. -/
theorem BoardStep.of_frame {o : Op} {r : o.Ret} (hr : o.exec s c = some (s', r))
    (hm : o.store ≠ some .market) (hd : o.store ≠ some .docIds) (ho : o.Silent)
    (hclerk : th'.clerk = th.clerk) : BoardStep s th o s' th' :=
  .quiet (by rw [(exec_frame hr).market hm]) ((exec_frame hr).docIdCounter hd) hclerk ho

/-- `market_add` puts the listing on the market, or finds it full. -/
theorem marketAdd_ids {t : Tags} {p : ℤ} {n : Bytes} {r}
    (hr : (Op.marketAdd d t p n).exec s c = some (s', r)) :
    (r = false ∧ s' = s ∧ marketIsFull s.market = true) ∨
      (r = true ∧ s'.docIdCounter = s.docIdCounter ∧
        (activeIds s'.market).Perm (d :: activeIds s.market)) := by
  simp only [Op.exec] at hr
  split at hr <;> cases hr
  · rename_i hnone
    refine .inl ⟨rfl, rfl, ?_⟩
    rw [marketAdd, Option.map_eq_none_iff, updateFirst_eq_none] at hnone
    rw [marketIsFull, List.all_eq_true]
    exact fun slot hslot => by simpa using hnone slot hslot
  · rename_i m hm
    exact .inr ⟨rfl, rfl, activeIds_add hm⟩

theorem market_leak {pc : Leak} {b : Next Leak Bool} (h : (firePublicLeak pc).Steps s c s' b) :
    activeIds s'.market = activeIds s.market := by
  obtain ⟨r, hr, -⟩ := h
  cases pc with
  | freeze mask dur =>
    cases hr
    exact activeIds_freeze s.market mask
  | unfreeze mask =>
    cases hr
    exact activeIds_unfreeze s.market mask
  | _ => rw [(exec_frame hr).market (by simp [firePublicLeak, Op.store])]

/-- **The step of a purchase.** -/
theorem buy_board {q : Buy} {pc' : Command} {r : (handleBuy sock key d q).op.Ret}
    (hr : (handleBuy sock key d q).op.exec s c = some (s', r))
    (hroom : ∀ slot, q = .rollback slot → marketIsFull s.market = false)
    (hbought : ∀ slot, q.slot = some slot → slot.docId = d)
    (hpc : Command.resume (.buy d) true ((handleBuy sock key d q).next r) = .cont pc') :
    BoardStep s (.session sock key (.buy d q)) (handleBuy sock key d q).op s'
      (.session sock key pc') := by
  have hquiet : (∀ rec off, q ≠ .take rec off) → (∀ slot, q ≠ .rollback slot) → q ≠ .announce →
      pc'.clerk = (Command.buy d q).clerk →
      BoardStep s (.session sock key (.buy d q)) (handleBuy sock key d q).op s'
        (.session sock key pc') := by
    intro htake hroll hann hclerk
    refine .of_frame hr ?_ ?_ ?_ hclerk
    · cases q <;> first
        | exact absurd rfl (htake _ _)
        | exact absurd rfl (hroll _)
        | simp [handleBuy, Op.store]
    · cases q <;> simp [handleBuy, Op.store]
    · cases q <;> first
        | exact absurd rfl hann
        | simp [Op.Silent, handleBuy, Op.packet, Packet.notice, Packet.greets]
  cases q with
  | find =>
    refine hquiet (by rintro _ _ ⟨⟩) (by rintro _ ⟨⟩) (by rintro ⟨⟩) ?_
    rcases r with _ | slot
    · cases hpc
      rfl
    · simp only [handleBuy] at hpc
      split_ifs at hpc <;> cases hpc <;> rfl
  | count slot =>
    refine hquiet (by rintro _ _ ⟨⟩) (by rintro _ ⟨⟩) (by rintro ⟨⟩) ?_
    rcases r with _ | n
    · cases hpc
      rfl
    · simp only [handleBuy] at hpc
      split_ifs at hpc <;> cases hpc <;> rfl
  | lookup slot =>
    refine hquiet (by rintro _ _ ⟨⟩) (by rintro _ ⟨⟩) (by rintro ⟨⟩) ?_
    rcases r with _ | ⟨rec, off⟩
    · cases hpc
      rfl
    · simp only [handleBuy] at hpc
      split_ifs at hpc <;> cases hpc <;> rfl
  | take rec off =>
    cases hr
    rcases marketTake_cases s.market d with ⟨e, he⟩ | ⟨slot, slots, hu, -, he⟩
    · simp only [handleBuy, he] at hpc ⊢
      cases e <;> cases hpc <;> exact .quiet rfl rfl rfl (silent_of_none (by rintro ⟨⟩) rfl)
    · simp only [handleBuy, he] at hpc ⊢
      cases hpc
      exact .take [d] (activeIds_take hu) rfl rfl (silent_of_none (by rintro ⟨⟩) rfl)
  | stat slot rec off | move slot rec off =>
    refine hquiet (by rintro _ _ ⟨⟩) (by rintro _ ⟨⟩) (by rintro ⟨⟩) ?_
    simp only [handleBuy] at hpc
    split_ifs at hpc <;> cases hpc <;> rfl
  | rollback slot =>
    obtain rfl := hbought slot rfl
    cases hpc
    rcases marketAdd_ids hr with ⟨-, -, hfull⟩ | ⟨-, hcount, hids⟩
    · rw [hroom slot rfl] at hfull
      cases hfull
    · exact .relist slot.docId [] hids hcount rfl rfl (silent_of_none (by rintro ⟨⟩) rfl)
  | charge slot rec off | reply slot rec =>
    cases hpc
    exact hquiet (by rintro _ _ ⟨⟩) (by rintro _ ⟨⟩) (by rintro ⟨⟩) rfl
  | announce =>
    cases hpc
    cases hr
    exact .retract _ d [] rfl rfl rfl rfl rfl

/-- What is left to do of a spawn. -/
def clerkAfterSpawn : Next Spawn → Clerk ℤ ℕ
  | .cont q => (Event.spawn q).clerk
  | _ => {}

/-- **The step of a spawn.** -/
theorem spawn_board {v v' : EventVars} {q : Spawn} {pc' : Event} {r : (eventSpawnMarket q).op.Ret}
    (hr : (eventSpawnMarket q).op.exec s c = some (s', r))
    (hpc' : (∃ q', (eventSpawnMarket q).next r = .cont q' ∧ pc' = .spawn q') ∨
      ((∀ q', (eventSpawnMarket q).next r ≠ .cont q') ∧ pc'.clerk = {})) :
    BoardStep s (.event v (.spawn q)) (eventSpawnMarket q).op s' (.event v' pc') := by
  have hclerk : pc'.clerk = clerkAfterSpawn ((eventSpawnMarket q).next r) := by
    rcases hpc' with ⟨q', hq', rfl⟩ | ⟨hno, hclerk⟩
    · rw [hq']
      rfl
    · rw [hclerk]
      rcases hn : (eventSpawnMarket q).next r with q' | _ | _
      · exact absurd hn (hno q')
      · rfl
      · rfl
  cases q with
  | docId tags =>
    cases hr
    exact .allot rfl rfl rfl hclerk
  | full | tags frozen =>
    cases hr
    refine .quiet rfl rfl ?_ (silent_of_none (by rintro ⟨⟩) rfl)
    simp only [eventSpawnMarket] at hclerk
    show pc'.clerk = _
    rw [hclerk]
    split_ifs <;> rfl
  | mask | price tags d | name tags d price =>
    cases hr
    exact .quiet rfl rfl hclerk (silent_of_none (by rintro ⟨⟩) rfl)
  | write doc =>
    have hids : activeIds s'.market = activeIds s.market := by
      rw [(exec_frame hr).market (by simp [eventSpawnMarket, Op.store])]
    have hcount : s'.docIdCounter = s.docIdCounter :=
      (exec_frame hr).docIdCounter (by simp [eventSpawnMarket, Op.store])
    simp only [eventSpawnMarket] at hclerk
    cases r with
    | false =>
      exact .drop [] hids hcount (List.nil_sublist _) hclerk (silent_of_none (by rintro ⟨⟩) rfl)
    | true => exact .quiet hids hcount hclerk (silent_of_none (by rintro ⟨⟩) rfl)
  | add doc =>
    rcases marketAdd_ids hr with ⟨rfl, rfl, -⟩ | ⟨rfl, hcount, hids⟩
    · exact .drop [] rfl rfl (List.nil_sublist _) hclerk (silent_of_none (by rintro ⟨⟩) rfl)
    · exact .list doc.docId [] hids hcount rfl hclerk (silent_of_none (by rintro ⟨⟩) rfl)
  | remove doc =>
    refine .of_frame hr ?_ ?_ (silent_of_none (by rintro ⟨⟩) rfl) hclerk <;>
      simp [eventSpawnMarket, Op.store]
  | announce doc =>
    cases hr
    exact .announce _ doc.docId [] rfl rfl rfl rfl hclerk

/-- **The step of the ageing.** -/
theorem age_board {v v' : EventVars} {q : AgeMarket} {pc' : Event} {r : (eventAgeMarket q).op.Ret}
    (hr : (eventAgeMarket q).op.exec s c = some (s', r))
    (hlen : s.market.slots.length ≤ maxMarketSlots)
    (hpc' : (∃ q', (eventAgeMarket q).next r = .cont q' ∧ pc' = .ageMarket q') ∨
      ((∀ q', (eventAgeMarket q).next r ≠ .cont q') ∧ pc'.clerk = {})) :
    BoardStep s (.event v (.ageMarket q)) (eventAgeMarket q).op s' (.event v' pc') := by
  have hnext : ∀ ids, (eventAgeMarket q).next r = AgeMarket.removeNext ids →
      pc'.clerk = { removing := ids } := by
    intro ids hids
    rw [hids] at hpc'
    cases ids with
    | nil =>
      rcases hpc' with ⟨q', hq', -⟩ | ⟨-, hclerk⟩
      · cases hq'
      · exact hclerk
    | cons d todo =>
      rcases hpc' with ⟨q', hq', rfl⟩ | ⟨hno, -⟩
      · cases hq'
        rfl
      · exact absurd rfl (hno _)
  cases q with
  | despawn =>
    cases hr
    refine .take _ (activeIds_despawn hlen s.clock) rfl ?_ (silent_of_none nofun rfl)
    show pc'.clerk = _
    rw [hnext _ rfl]
    exact congrArg (fun ids => ({ removing := ids } : Clerk ℤ ℕ)) (List.append_nil _).symm
  | remove d todo =>
    refine .of_frame hr ?_ ?_ (silent_of_none nofun rfl) ?_
    · simp [eventAgeMarket, Op.store]
    · simp [eventAgeMarket, Op.store]
    · rcases hpc' with ⟨q', hq', rfl⟩ | ⟨hno, -⟩
      · cases hq'
        rfl
      · exact absurd rfl (hno _)
  | announce d todo =>
    cases hr
    exact .retract _ d todo rfl rfl rfl rfl (hnext _ rfl)

/-- **The step of a login.** -/
theorem login_board {pc : Login} {r : (clientLogin sock pc).op.Ret}
    (hr : (clientLogin sock pc).op.exec s c = some (s', r))
    (hlen : s.market.slots.length ≤ maxMarketSlots)
    (hth' : (∃ pc', (clientLogin sock pc).next r = .cont pc' ∧ th' = .login sock pc') ∨
      ((∀ pc', (clientLogin sock pc).next r ≠ .cont pc') ∧ th'.clerk = {})) :
    BoardStep s (.login sock pc) (clientLogin sock pc).op s' th' := by
  have hcont : ∀ pc', (clientLogin sock pc).next r = .cont pc' →
      th'.clerk = { greeting := pc'.greeting sock, sending := pc'.sending sock } := by
    intro pc' hpc'
    rcases hth' with ⟨_, hq', rfl⟩ | ⟨hno, -⟩
    · rw [hpc'] at hq'
      cases hq'
      rfl
    · exact absurd hpc' (hno _)
  have hquiet : (∀ key rec goal, pc ≠ .reply key rec goal) → (∀ key, pc ≠ .marketSnapshot key) →
      (∀ key slot todo, pc ≠ .marketSend key slot todo) → (∀ pc', (clientLogin sock pc).next r =
        .cont pc' → pc'.greeting sock = [] ∧ pc'.sending sock = []) →
      BoardStep s (.login sock pc) (clientLogin sock pc).op s' th' := by
    intro hreply hsnap hsend hpc'
    have hw := clientLogin_within sock pc
    refine .of_frame hr (hw.store_ne (by simp)) (hw.store_ne (by simp)) ?_ ?_
    · cases pc <;> first
        | exact absurd rfl (hreply _ _ _)
        | exact absurd rfl (hsend _ _ _)
        | simp [Op.Silent, clientLogin, Op.packet, Packet.notice, Packet.greets,
            NPCSlot.spawnPacket]
    · have hclerk : (Thread.login sock pc).clerk = {} := by
        cases pc <;> first
          | exact absurd rfl (hsnap _)
          | exact absurd rfl (hsend _ _ _)
          | rfl
      rw [hclerk]
      rcases hth' with ⟨pc', hq', rfl⟩ | ⟨-, h⟩
      · obtain ⟨hg, hs⟩ := hpc' pc' hq'
        simp only [Thread.clerk, hg, hs]
      · exact h
  cases pc with
  | reply key rec goal =>
    cases hr
    exact .greet sock _ rfl rfl rfl rfl (hcont _ rfl)
  | marketSnapshot key =>
    cases hr
    refine .snapshot sock [] rfl rfl rfl ?_
    rw [hcont _ rfl, ← snapshot_ids hlen]
    rcases marketSnapshot s.market maxMarketSlots with _ | ⟨slot, todo⟩
    · rfl
    · simp [Login.marketSendNext, Login.greeting, Login.sending, Thread.clerk]
  | marketSend key slot todo =>
    cases hr
    refine .send sock _ slot.docId (todo.map fun slot => (sock, slot.docId)) rfl rfl rfl rfl ?_
    rw [hcont _ rfl]
    cases todo <;> rfl
  | npcSend key npc todo =>
    refine hquiet (by rintro _ _ _ ⟨⟩) (by rintro _ ⟨⟩) (by rintro _ _ _ ⟨⟩) fun pc' hpc' => ?_
    cases hpc'
    cases todo <;> exact ⟨rfl, rfl⟩
  | npcSnapshot key =>
    refine hquiet (by rintro _ _ _ ⟨⟩) (by rintro _ ⟨⟩) (by rintro _ _ _ ⟨⟩) fun pc' hpc' => ?_
    cases hpc'
    cases r <;> exact ⟨rfl, rfl⟩
  | recv =>
    refine hquiet (by rintro _ _ _ ⟨⟩) (by rintro _ ⟨⟩) (by rintro _ _ _ ⟨⟩) fun pc' hpc' => ?_
    simp only [clientLogin] at hpc'
    split at hpc' <;> cases hpc' <;> exact ⟨rfl, rfl⟩
  | lookup key =>
    refine hquiet (by rintro _ _ _ ⟨⟩) (by rintro _ ⟨⟩) (by rintro _ _ _ ⟨⟩) fun pc' hpc' => ?_
    simp only [clientLogin] at hpc'
    split at hpc'
    · cases hpc'
      exact ⟨rfl, rfl⟩
    · split_ifs at hpc' <;> cases hpc' <;> exact ⟨rfl, rfl⟩
  | duplicate key | frozenMask key =>
    refine hquiet (by rintro _ _ _ ⟨⟩) (by rintro _ ⟨⟩) (by rintro _ _ _ ⟨⟩) fun pc' hpc' => ?_
    simp only [clientLogin] at hpc'
    split_ifs at hpc' <;> cases hpc' <;> exact ⟨rfl, rfl⟩
  | frozenSend key mask | refuse code reason =>
    refine hquiet (by rintro _ _ _ ⟨⟩) (by rintro _ ⟨⟩) (by rintro _ _ _ ⟨⟩) fun pc' hpc' => ?_
    cases hpc'
  | _ =>
    refine hquiet (by rintro _ _ _ ⟨⟩) (by rintro _ ⟨⟩) (by rintro _ _ _ ⟨⟩) fun pc' hpc' => ?_
    cases hpc'
    exact ⟨rfl, rfl⟩

/-- **The step of the seeding** by the main thread. -/
theorem seed_board {q : Seed} {pc' : Main} {r : (seedMarketAndNpc q).op.Ret}
    (hr : (seedMarketAndNpc q).op.exec s c = some (s', r))
    (hpc' : (∃ q', (seedMarketAndNpc q).next r = .cont q' ∧ pc' = .seed q') ∨
      ((∀ q', (seedMarketAndNpc q).next r ≠ .cont q') ∧ (Thread.main pc').clerk = {})) :
    BoardStep s (.main (.seed q)) (seedMarketAndNpc q).op s' (.main pc') := by
  have hnpc : ∀ todo, (seedMarketAndNpc q).next r = Seed.npcNext todo →
      (Thread.main pc').clerk = {} := by
    intro todo hq
    rcases hpc' with ⟨q', hq', rfl⟩ | ⟨-, hclerk⟩
    · rw [hq] at hq'
      cases todo <;> cases hq'
      rfl
    · exact hclerk
  cases q with
  | write doc todo =>
    refine .of_frame hr ?_ ?_ (silent_of_none (by rintro ⟨⟩) rfl) ?_
    · simp [seedMarketAndNpc, Op.store]
    · simp [seedMarketAndNpc, Op.store]
    · rcases hpc' with ⟨q', hq', rfl⟩ | ⟨hno, -⟩
      · cases hq'
        rfl
      · exact absurd rfl (hno _)
  | add doc todo =>
    have hclerk : (Thread.main pc').clerk = { making := todo.map (·.docId) } := by
      cases todo with
      | nil => exact hnpc seedNpcs rfl
      | cons doc' todo =>
        rcases hpc' with ⟨q', hq', rfl⟩ | ⟨hno, -⟩
        · cases hq'
          rfl
        · exact absurd rfl (hno _)
    rcases marketAdd_ids hr with ⟨rfl, rfl, -⟩ | ⟨rfl, hcount, hids⟩
    · exact .drop _ rfl rfl (List.sublist_cons_self _ _) hclerk (silent_of_none (by rintro ⟨⟩) rfl)
    · exact .place doc.docId _ hids hcount rfl hclerk (silent_of_none (by rintro ⟨⟩) rfl)
  | npc n todo =>
    refine .of_frame hr ?_ ?_ (silent_of_none (by rintro ⟨⟩) rfl) (hnpc _ rfl) <;>
      simp [seedMarketAndNpc, Op.store]

/-- A command other than a purchase lists nothing and takes nothing off the market. -/
theorem session_ids {pc : Command} {b : Next Command} (hpc : ∀ d q, pc ≠ .buy d q)
    (h : (clientLoop sock key pc).Steps s c s' b) :
    activeIds s'.market = activeIds s.market := by
  have hsame : ∀ {l : List Store} {fd}, (clientLoop sock key pc).Within l fd → Store.market ∉ l →
      activeIds s'.market = activeIds s.market := by
    intro l fd hw hl
    rw [h.market_eq hw hl]
  cases pc with
  | buy d q => exact absurd rfl (hpc d q)
  | leak q =>
    obtain ⟨n, hn, -⟩ := Action.steps_map.1 h
    exact market_leak hn
  | bankruptcy q => exact hsame (checkBankruptcy_within sock key q) (by simp)
  | sell n ds q => exact hsame (handleSell_within sock key n ds q) (by simp)
  | dispose d q => exact hsame (handleDispose_within sock key d q) (by simp)
  | inventory q => exact hsame (handleInventory_within sock key q) (by simp)
  | rumor k q => exact hsame (handleRumor_within sock key k q) (by simp)
  | payoff q => exact hsame (handlePayoff_within sock key q) (by simp)
  | minigame code q => exact hsame (handleMinigameSubmit_within sock key code q) (by simp)
  | selfRaid q => exact hsame (fireSelfPoliceRaid_within sock key q) (by simp)
  | fakeRich q => exact hsame (handleFakeRich_within sock key q) (by simp)
  | endround q => exact hsame (fireRoundEndCountdown_within _ q) (by simp)
  | _ => rw [h.frame.market (by simp [clientLoop, Op.store])]

/-- A command that begins has nothing in hand. -/
theorem session_clerk {pc pc' : Command} (hpc : ∀ d q, pc ≠ .buy d q)
    (h : (clientLoop sock key pc).Steps s c s' (.cont pc')) : pc'.clerk = {} := by
  have ho := session_origin h
  cases pc' with
  | buy d q =>
    rcases ho with ⟨rfl, -⟩ | ⟨q, rfl, -⟩
    · rfl
    · exact absurd rfl (hpc d q)
  | _ => rfl

/-- The event thread works on the market when it spawns, ages and leaks. -/
theorem event_ids {v : EventVars} {pc : Event} {b : EventVars × Event}
    (hspawn : ∀ q, pc ≠ .spawn q) (hage : ∀ q, pc ≠ .ageMarket q)
    (h : (eventThreadFunc v pc).Steps s c s' b) :
    activeIds s'.market = activeIds s.market ∧ s'.docIdCounter = s.docIdCounter := by
  have hsame : ∀ {l : List Store} {fd}, (eventThreadFunc v pc).Within l fd → Store.market ∉ l →
      Store.docIds ∉ l → activeIds s'.market = activeIds s.market ∧
        s'.docIdCounter = s.docIdCounter := by
    intro l fd hw hl hd
    rw [h.market_eq hw hl]
    exact ⟨rfl, h.frame.docIdCounter (hw.store_ne hd)⟩
  cases pc with
  | spawn q => exact absurd rfl (hspawn q)
  | ageMarket q => exact absurd rfl (hage q)
  | leak q =>
    obtain ⟨n, hn, -⟩ := Action.steps_map.1 h
    refine ⟨market_leak hn, h.frame.docIdCounter ?_⟩
    exact (firePublicLeak_within q).store_ne (by simp)
  | roundEnd q => exact hsame (fireRoundEndCountdown_within _ q) (by simp) (by simp)
  | ageNpcs q => exact hsame (eventAgeNpcs_within q) (by simp) (by simp)
  | raid q => exact hsame (firePeriodicPoliceRaid_within q) (by simp) (by simp)
  | _ =>
    refine ⟨?_, h.frame.docIdCounter (by simp [eventThreadFunc, Op.store])⟩
    rw [h.frame.market (by simp [eventThreadFunc, Op.store])]

theorem event_clerk {v v' : EventVars} {pc pc' : Event} (hspawn : ∀ q, pc ≠ .spawn q)
    (hage : ∀ q, pc ≠ .ageMarket q) (h : (eventThreadFunc v pc).Steps s c s' (v', pc')) :
    pc'.clerk = {} := by
  have ho := event_origin h
  cases pc' with
  | spawn q =>
    rcases ho with rfl | ⟨q, rfl, -⟩
    · rfl
    · exact absurd rfl (hspawn q)
  | ageMarket q =>
    rcases ho with rfl | ⟨q, rfl, -⟩
    · rfl
    · exact absurd rfl (hage q)
  | _ => rfl

theorem clerk_afterSpawn (v : EventVars) : (Event.afterSpawn v).clerk = {} := by
  unfold Event.afterSpawn Event.afterNpc
  split_ifs <;> rfl

/-- **What a step of the main thread does to the market.** -/
theorem main_board {pc : Main} (ha : (Thread.main pc).action = some a) {r : a.op.Ret}
    (hr : a.op.exec s c = some (s', r)) (hstart : pc = .marketInit → activeIds s.market = []) :
    BoardStep s (.main pc) a.op s' (a.next r) := by
  cases ha
  cases pc with
  | marketInit =>
    cases hr
    refine .quiet ?_ rfl rfl (silent_of_none (by rintro ⟨⟩) rfl)
    rw [hstart rfl]
    exact activeIds_marketInit
  | npcInit =>
    cases hr
    exact .quiet rfl rfl rfl (silent_of_none (by rintro ⟨⟩) rfl)
  | seed q =>
    obtain ⟨pc', hn, hpc'⟩ : ∃ pc' : Main,
        ((mainThread (.seed q)).map (Thread.resume .main)).next r = .main pc' ∧
        ((∃ q', (seedMarketAndNpc q).next r = .cont q' ∧ pc' = .seed q') ∨
          ((∀ q', (seedMarketAndNpc q).next r ≠ .cont q') ∧ (Thread.main pc').clerk = {})) := by
      simp only [Action.map, mainThread]
      rcases (seedMarketAndNpc q).next r with q' | _ | _
      · exact ⟨_, rfl, .inl ⟨q', rfl, rfl⟩⟩
      · exact ⟨_, rfl, .inr ⟨(by rintro _ ⟨⟩), rfl⟩⟩
      · exact ⟨_, rfl, .inr ⟨(by rintro _ ⟨⟩), rfl⟩⟩
    rw [hn]
    exact seed_board hr hpc'
  | startEvents =>
    refine .of_frame hr (by rintro ⟨⟩) (by rintro ⟨⟩) (silent_of_none (by rintro ⟨⟩) rfl) ?_
    cases r <;> rfl
  | accept =>
    have hf := exec_frame hr
    exact .accept (hf.market (by rintro ⟨⟩)) (hf.docIdCounter (by rintro ⟨⟩)) rfl rfl
  | add sock =>
    refine .of_frame hr (by rintro ⟨⟩) (by rintro ⟨⟩) (silent_of_none (by rintro ⟨⟩) rfl) ?_
    cases r <;> rfl
  | reject sock =>
    exact .of_frame hr (by rintro ⟨⟩) (by rintro ⟨⟩) (silent_of_none (by rintro ⟨⟩) rfl) rfl

/-- **What a step of the event thread does to the market.** -/
theorem event_board {v : EventVars} {pc : Event} (ha : (Thread.event v pc).action = some a)
    {r : a.op.Ret} (hr : a.op.exec s c = some (s', r))
    (hlen : s.market.slots.length ≤ maxMarketSlots) :
    BoardStep s (.event v pc) a.op s' (a.next r) := by
  have h : a.Steps s c s' (a.next r) := ⟨r, hr, rfl⟩
  cases ha
  by_cases hspawn : ∃ q, pc = .spawn q
  · obtain ⟨q, rfl⟩ := hspawn
    have hb := fun (v' : EventVars) (pc' : Event) hpc' =>
      (spawn_board hr hpc' : BoardStep s (.event v (.spawn q)) _ s' (.event v' pc'))
    simp only [Action.map, eventThreadFunc] at hb ⊢
    rcases hn : (eventSpawnMarket q).next r with q' | _ | _ <;> simp only [hn] at hb ⊢
    · exact hb v _ (.inl ⟨q', rfl, rfl⟩)
    · exact hb v _ (.inr ⟨(by rintro _ ⟨⟩), clerk_afterSpawn v⟩)
    · exact hb v _ (.inr ⟨(by rintro _ ⟨⟩), clerk_afterSpawn v⟩)
  by_cases hage : ∃ q, pc = .ageMarket q
  · obtain ⟨q, rfl⟩ := hage
    have hb := fun (v' : EventVars) (pc' : Event) hpc' =>
      (age_board hr hlen hpc' : BoardStep s (.event v (.ageMarket q)) _ s' (.event v' pc'))
    simp only [Action.map, eventThreadFunc] at hb ⊢
    rcases hn : (eventAgeMarket q).next r with q' | _ | _ <;> simp only [hn] at hb ⊢
    · exact hb v _ (.inl ⟨q', rfl, rfl⟩)
    · exact hb v _ (.inr ⟨(by rintro _ ⟨⟩), rfl⟩)
    · exact hb v _ (.inr ⟨(by rintro _ ⟨⟩), rfl⟩)
  have hsp : ∀ q, pc ≠ .spawn q := fun q hq => hspawn ⟨q, hq⟩
  have hag : ∀ q, pc ≠ .ageMarket q := fun q hq => hage ⟨q, hq⟩
  obtain ⟨⟨v', pc'⟩, hn, he⟩ := Action.steps_map.1 h
  obtain ⟨hids, hcount⟩ := event_ids hsp hag hn
  refine .quiet hids hcount ?_ (eventThreadFunc_silent hsp hag)
  rw [he]
  show pc'.clerk = pc.clerk
  rw [event_clerk hsp hag hn]
  cases pc <;> first | exact absurd rfl (hsp _) | exact absurd rfl (hag _) | rfl

/-- **What a step does to the market and to the hand of its thread.** -/
theorem board_step (ha : th.action = some a) {r : a.op.Ret} (hr : a.op.exec s c = some (s', r))
    (hstart : th = .main .marketInit → activeIds s.market = [])
    (hlen : s.market.slots.length ≤ maxMarketSlots)
    (hroom : th.relists = true → marketIsFull s.market = false) (hreset : th.resets = false)
    (hbought : th.Bought) : BoardStep s th a.op s' (a.next r) := by
  have h : a.Steps s c s' (a.next r) := ⟨r, hr, rfl⟩
  cases th with
  | main pc => exact main_board ha hr fun hpc => hstart (by rw [hpc])
  | event v pc => exact event_board ha hr hlen
  | login sock pc =>
    cases ha
    refine login_board hr hlen ?_
    simp only [Action.map]
    rcases (clientLogin sock pc).next r with pc' | (_ | key) | _
    · exact .inl ⟨pc', rfl, rfl⟩
    · exact .inr ⟨(by rintro _ ⟨⟩), rfl⟩
    · exact .inr ⟨(by rintro _ ⟨⟩), rfl⟩
    · exact .inr ⟨(by rintro _ ⟨⟩), rfl⟩
  | session sock key pc =>
    cases ha
    -- of the commands only a purchase takes a listing
    by_cases hbuy : ∃ d q, pc = .buy d q
    · obtain ⟨d, q, rfl⟩ := hbuy
      obtain ⟨pc', hpc'⟩ : ∃ pc', Command.resume (.buy d) true ((handleBuy sock key d q).next r) =
          .cont pc' := by
        cases (handleBuy sock key d q).next r <;> exact ⟨_, rfl⟩
      have hb := buy_board hr (fun slot hq => hroom (by subst hq; rfl)) hbought hpc'
      simp only [Action.map, clientLoop, hpc'] at hb ⊢
      exact hb
    · have hpc : ∀ d q, pc ≠ .buy d q := fun d q h => hbuy ⟨d, q, h⟩
      have hclerk : (Thread.session sock key pc).clerk = {} := by
        cases pc <;> first | exact absurd rfl (hpc _ _) | rfl
      have hw := clientLoop_within sock key pc
      obtain ⟨n, hn, he⟩ := Action.steps_map.1 h
      refine .quiet (session_ids hpc hn) ?_ ?_ (clientLoop_silent hpc)
      · exact (exec_frame hr).docIdCounter (hw.store_ne (by simp))
      · rw [hclerk, he]
        rcases n with pc' | _ | _
        · exact session_clerk hpc hn
        · rfl
        · rfl
  | disconnect sock pc =>
    cases ha
    cases pc <;>
      exact .of_frame hr (by rintro ⟨⟩) (by rintro ⟨⟩) (silent_of_none (by rintro ⟨⟩) rfl) rfl
  | npcSequence pc =>
    cases ha
    have hw := eventDoNpcSequence_within pc
    obtain ⟨n, -, he⟩ := Action.steps_map.1 h
    refine .of_frame hr (hw.store_ne (by simp)) (hw.store_ne (by simp)) ?_ ?_
    · cases pc <;> simp [Op.Silent, Action.map, eventDoNpcSequence, Op.packet, Packet.notice,
        Packet.greets]
    · rw [he]
      cases n <;> rfl
  | leakRecovery mask dur pc =>
    cases ha
    obtain ⟨n, -, he⟩ := Action.steps_map.1 h
    have hclerk : (((leakRecoveryThread mask dur pc).map
        (Thread.resume (.leakRecovery mask dur))).next r).clerk = {} := by
      rw [he]
      cases n <;> rfl
    cases pc with
    | unfreeze =>
      cases hr
      exact .quiet (activeIds_unfreeze s.market mask) rfl hclerk (silent_of_none (by rintro ⟨⟩) rfl)
    | _ =>
      refine .of_frame hr (by rintro ⟨⟩) (by rintro ⟨⟩) ?_ hclerk
      simp [Op.Silent, Action.map, leakRecoveryThread, Op.packet, Packet.notice, Packet.greets]
  | raidTimeout serial pc =>
    cases ha
    have hw := periodicRaidTimeoutThread_within pc
    obtain ⟨n, -, he⟩ := Action.steps_map.1 h
    refine .of_frame hr (hw.store_ne (by simp)) (hw.store_ne (by simp))
      (silent_of_ordinary (periodicRaidTimeoutThread_ordinary pc)) ?_
    rw [he]
    cases n <;> rfl
  | roundEndTimer pc =>
    cases ha
    cases pc with
    | reset q => cases hreset
    | start | sleep wake =>
      exact .of_frame hr (by rintro ⟨⟩) (by rintro ⟨⟩) (silent_of_none (by rintro ⟨⟩) rfl) rfl
    | check =>
      refine .of_frame hr (by rintro ⟨⟩) (by rintro ⟨⟩) (silent_of_none (by rintro ⟨⟩) rfl) ?_
      simp only [Action.map, roundEndTimerThread]
      split_ifs <;> rfl
  | finished => cases ha

end UnderFlow
