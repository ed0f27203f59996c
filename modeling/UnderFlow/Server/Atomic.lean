import UnderFlow.Server.Hands

/-!
# Trading is atomic

* `Turn.purse` : what everybody has after a step is what the deal of the step makes of it.
* `Turn.allowed` : the house allows the deal.
* `Turn.house` : **a step of the server is one deal of the house, or none**.
* `makes_of_guard` : a guarded run of the server is a run of the house.
* `houseKept_of_guard` : so nothing has two owners, nobody is in debt, and nothing is sold twice.
-/

namespace UnderFlow

variable {s s' : Shared} {c : Choice} {o : Op} {th th' u : Thread} {a : Action Thread}
  {r : a.op.Ret} {i t off : ℕ} {key k : Key} {d n x : ℤ} {doc : DocFile} {rec rec' : UserRecord}
  {b : Option ServerDeal} {y : ServerDeal} {hist : List PlaceEvent} {p p' : Server} {db : UserDb}

/-! ### Records -/

/-- A key with one record is found where it is. -/
theorem find_of_keyAt (hnodup : (db.map (·.key)).Nodup) (h : keyAt db off = some key) :
    ∃ rec, userdbFind db key = some (rec, off) := by
  obtain ⟨rec, hget, hkey⟩ := keyAt_eq_some.1 h
  refine ⟨rec, userdbFind_eq_some.2 ⟨hget, hkey, fun j hj old hold hkey' => ?_⟩⟩
  obtain ⟨hlt, rfl⟩ := List.getElem?_eq_some_iff.1 hget
  obtain ⟨hlt', rfl⟩ := List.getElem?_eq_some_iff.1 hold
  have hne := List.pairwise_iff_getElem.1 hnodup j off (by simpa) (by simpa) hj
  simp only [List.getElem_map] at hne
  exact hne (hkey'.trans hkey.symm)

theorem balanceOf_ne_none (h : ∃ rec ∈ db, rec.key = key) : balanceOf db key ≠ none := by
  obtain ⟨rec, hrec, hkey⟩ := h
  exact fun hnone => balanceOf_eq_none.1 hnone rec hrec hkey

theorem purseOf_ne_none (h : ∃ rec ∈ p.shared.users, rec.key = key) : p.purseOf key ≠ none := by
  intro hnone
  exact balanceOf_ne_none h (Option.map_eq_none_iff.1 hnone)

theorem float_of_waits (h : u.waits = true) (k : Key) : u.float k = 0 := by
  cases u with
  | session sock key pc => cases pc <;> first | exact ite_self _ | cases h
  | _ => rfl

/-! ### What ages -/

theorem allowed_expire (p : Server) : (Deal.expire ((p.shared.market.slots.filter
    (·.expired p.shared.clock)).map (·.doc)) : ServerDeal).Allowed houseTerms p.house := by
  intro doc hdoc
  obtain ⟨slot, hslot, rfl⟩ := List.mem_map.1 hdoc
  obtain ⟨hslot, hexp⟩ := List.mem_filter.1 hslot
  simp only [MarketSlot.expired, Bool.and_eq_true] at hexp
  exact ⟨slot, hslot, hexp.1.1, rfl⟩

theorem allowed_withdraw (p : Server) {f : NPCSlot → Bool}
    (hf : ∀ npc, f npc = true → npc.active = true) :
    (Deal.withdraw ((List.range p.shared.npcs.length).filter
      fun i => p.shared.npcs[i]?.any f) : ServerDeal).Allowed houseTerms p.house := by
  intro i hi
  obtain ⟨-, hany⟩ := List.mem_filter.1 hi
  obtain ⟨npc, hnpc, hfnpc⟩ := (Option.any_eq_true _ _).1 hany
  show orderAt p.shared.npcs i ≠ none
  rw [orderAt_of_getElem? hnpc, if_pos (hf npc hfnpc)]
  exact Option.some_ne_none _

namespace Turn

variable (T : Turn p hist t c th a r p')

include T

/-! ### Purses -/

theorem float_step (k : Key) : (p'.threads.map (Thread.float k)).sum =
    (p.threads.map (Thread.float k)).sum - th.float k + (a.next r).float k := by
  rw [T.threads]
  exact Pool.sum_step T.thread fun u hu => (idle_of_spawned hu).float k

/-- The trade of a player under way is that of its own thread. -/
theorem float_own (hplayer : th.player = some k) :
    (p.threads.map (Thread.float k)).sum = th.float k := by
  refine Pool.sum_eq_of_alone T.thread fun j u hj hu => ?_
  by_contra hne
  exact T.other_player hplayer hj hu (player_of_float hne)

/-- Who has no record trades nothing. -/
theorem float_absent (hk : ∀ rec ∈ p.shared.users, rec.key ≠ k) :
    (p.threads.map (Thread.float k)).sum = 0 := by
  refine List.sum_eq_zero fun x hx => ?_
  obtain ⟨u, hu, rfl⟩ := List.mem_map.1 hx
  obtain ⟨j, hj⟩ := List.getElem?_of_mem hu
  by_contra hne
  have hplayer := player_of_float hne
  cases u with
  | session sock key pc =>
    cases hplayer
    obtain ⟨rec, hrec, hkey⟩ := (T.before.accounts.thread j _ hj).known k rfl
    exact hk rec hrec hkey
  | _ => cases hplayer

/-- What the player of an idle thread has is its balance. -/
theorem purse_own (hplayer : th.player = some key) (hidle : Idle th)
    (hquote : th.quotes = some x) : p.purseOf key = some x := by
  obtain ⟨key', hplayer', hb⟩ := (T.before.knows t th T.thread).quotes x hquote
  obtain rfl := Option.some.inj (hplayer.symm.trans hplayer')
  rw [Server.purseOf, hb, T.float_own hplayer, hidle.float, Option.map_some, add_zero]

theorem purse_same (hb : ∀ k, balanceOf p'.shared.users k = balanceOf p.shared.users k)
    (hfloat : ∀ k, (a.next r).float k = th.float k) : p'.purseOf = p.purseOf := by
  funext k
  rw [Server.purseOf, Server.purseOf, hb, T.float_step, hfloat, sub_add_cancel]

/-- A trade that is made and not in the database yet. -/
theorem purse_trade (husers : p'.shared.users = p.shared.users) (hidle : Idle th)
    (hfloat : ∀ k, (a.next r).float k = if key = k then x else 0) :
    p'.purseOf = Function.update p.purseOf key ((p.purseOf key).map (· + x)) := by
  funext k
  by_cases hk : k = key
  · subst hk
    rw [Function.update_self, Server.purseOf, Server.purseOf, husers, T.float_step, hidle.float,
      hfloat, if_pos rfl, Option.map_map]
    congr 1
    funext m
    simp only [Function.comp_apply]
    omega
  · rw [Function.update_of_ne hk, Server.purseOf, Server.purseOf, husers, T.float_step,
      hidle.float, hfloat, if_neg (Ne.symm hk), sub_zero, add_zero]

/-- The balances after the record of the player is written. -/
theorem balance_write (hplayer : th.player = some key) (hcopy : th.copy = some (rec, off))
    (hkey : rec'.key = rec.key) (husers : p'.shared.users = p.shared.users.set off rec') (k : Key) :
    balanceOf p'.shared.users k =
      if k = key then some rec'.money else balanceOf p.shared.users k := by
  obtain ⟨hrec, r, hf⟩ := (T.before.knows t th T.thread).copy rec off hcopy
  obtain rfl : key = rec.key := Option.some.inj (hplayer.symm.trans hrec)
  have hA := (T.before.accounts.thread t th T.thread).copy rec off hcopy
  rw [husers]
  split_ifs with hk
  · subst hk
    exact balanceOf_set hf hkey
  · exact balanceOf_set_of_ne (hkey ▸ hA) (hkey ▸ Ne.symm hk)

/-- A trade that is settled was counted before. -/
theorem purse_settle (hplayer : th.player = some key) (hcopy : th.copy = some (rec, off))
    (hquote : th.quotes = some rec.money)
    (husers : p'.shared.users = p.shared.users.set off { rec with money := rec.money + x })
    (hfloat : ∀ k, th.float k = if key = k then x else 0) (hidle : Idle (a.next r)) :
    p'.purseOf = p.purseOf := by
  funext k
  have hb := T.balance_write hplayer hcopy
    (show ({ rec with money := rec.money + x } : UserRecord).key = rec.key from rfl) husers k
  rw [Server.purseOf, Server.purseOf, hb, T.float_step, hidle.float, hfloat, add_zero]
  by_cases hk : k = key
  · subst hk
    obtain ⟨key', hplayer', hold⟩ := (T.before.knows t th T.thread).quotes _ hquote
    obtain rfl := Option.some.inj (hplayer.symm.trans hplayer')
    rw [if_pos rfl, if_pos rfl, hold, Option.map_some, Option.map_some]
    congr 1
    show rec.money + x + _ = rec.money + _
    omega
  · rw [if_neg hk, if_neg (Ne.symm hk), sub_zero]

/-- A balance that is written by an idle thread. -/
theorem purse_write (hplayer : th.player = some key) (hcopy : th.copy = some (rec, off))
    (hkey : rec'.key = rec.key) (husers : p'.shared.users = p.shared.users.set off rec')
    (hidle : Idle th) (hidle' : Idle (a.next r)) :
    p'.purseOf = Function.update p.purseOf key (some rec'.money) := by
  funext k
  have hb := T.balance_write hplayer hcopy hkey husers k
  rw [Server.purseOf, hb, T.float_step, hidle.float, hidle'.float, sub_zero, add_zero]
  by_cases hk : k = key
  · subst hk
    rw [if_pos rfl, Function.update_self, T.float_own hplayer, hidle.float, Option.map_some,
      add_zero]
  · rw [if_neg hk, Function.update_of_ne hk]
    rfl

/-- A new account has no record yet. -/
theorem absent_of_join (husers : p'.shared.users = p.shared.users ++ [rec]) :
    ∀ old ∈ p.shared.users, old.key ≠ rec.key := by
  have hnodup := T.single.2
  rw [husers, List.map_append, List.nodup_append] at hnodup
  exact fun old hold => hnodup.2.2 _ (List.mem_map_of_mem hold) _ (by simp)

theorem purse_join (husers : p'.shared.users = p.shared.users ++ [rec]) (hidle : Idle th)
    (hidle' : Idle (a.next r)) :
    p'.purseOf = Function.update p.purseOf rec.key (some rec.money) := by
  have habsent := T.absent_of_join husers
  funext k
  rw [Server.purseOf, husers, balanceOf_append, T.float_step, hidle.float, hidle'.float, sub_zero,
    add_zero]
  by_cases hk : k = rec.key
  · subst hk
    rw [Function.update_self, balanceOf_eq_none.2 habsent, T.float_absent habsent, if_pos rfl,
      Option.none_or, Option.map_some, add_zero]
  · rw [Function.update_of_ne hk, if_neg (Ne.symm hk), Option.or_none]
    rfl

/-- Who is burned has no trade under way. -/
theorem purse_ruin (hop : a.op = .userdbBurnAt off) (hkey : keyAt p.shared.users off = some key)
    (husers : p'.shared.users = userdbBurnAt p.shared.users off) (hidle : Idle th)
    (hidle' : Idle (a.next r)) : p'.purseOf = Function.update p.purseOf key (some (-1)) := by
  obtain ⟨rec, hf⟩ := find_of_keyAt T.guard.single.2 hkey
  have hzero : (p.threads.map (Thread.float key)).sum = 0 := by
    rw [Pool.sum_eq_of_alone T.thread fun j u hj hu => ?_, hidle.float]
    by_contra hne
    have hwaits := T.guard.burns a.op T.op_at off (by rw [hop]; rfl) u (mem_othersAt hj hu) key
      (player_of_float hne) hkey
    exact hne (float_of_waits hwaits key)
  funext k
  rw [Server.purseOf, husers, T.float_step, hidle.float, hidle'.float, sub_zero, add_zero]
  by_cases hk : k = key
  · subst hk
    rw [Function.update_self, balanceOf_burnAt_self hf, hzero, Option.map_some, add_zero]
  · rw [Function.update_of_ne hk, balanceOf_burnAt_of_ne]
    · rfl
    · rw [hkey]
      rintro ⟨⟩
      exact hk rfl

/-- **What everybody has after a step** is what its deal, if there is one, makes of it. -/
theorem purse (h : DealStep p.shared th b p'.shared (a.next r)) :
    p'.purseOf = b.elim p.purseOf fun y => y.purse houseTerms p.purseOf := by
  have hsame : p'.shared.users = p.shared.users → (∀ k, (a.next r).float k = th.float k) →
      p'.purseOf = p.purseOf := fun husers => T.purse_same fun k => by rw [husers]
  cases h with
  | common hb husers _ hhands =>
    rw [hsame husers hhands.float]
    rcases b with _ | y
    · rfl
    · have hy := hb y rfl
      cases y <;> first | rfl | cases hy
  | buy sock key doc rec off hth hb _ husers _ hidle _ _ hfloat =>
    rw [hb, T.purse_trade husers hidle hfloat]
    rfl
  | move key d doc _ hb husers _ _ _ _ _ _ hfloat | give key d _ hb husers _ _ _ _ hfloat =>
    rw [hb]
    exact hsame husers hfloat
  | sell sock key n ds i npc hth _ _ hb husers _ hidle _ _ hfloat =>
    rw [hb, T.purse_trade husers hidle hfloat]
    rfl
  | discard key d hb _ husers _ hidle hidle' =>
    rw [hb, hsame husers (hidle.same hidle').float]
    rcases p.shared.files.get (userDir p.shared.cwd key.bytes) d with _ | doc <;> rfl
  | settle key rec off x hplayer hcopy hquote hb husers _ _ _ hfloat hidle =>
    rw [hb]
    exact T.purse_settle hplayer hcopy hquote husers hfloat hidle
  | pay sock key target now rec off hth hb husers _ hidle hidle' =>
    subst hth
    have hkey : ({ rec with money := rec.money - rumorFee } : UserRecord).key = rec.key := rfl
    rw [hb, T.purse_write rfl rfl hkey husers hidle hidle']
    show _ = Function.update p.purseOf key ((p.purseOf key).map (· - rumorFee))
    rw [T.purse_own rfl hidle rfl]
    rfl
  | assign key rec off rec' hplayer hcopy hkey _ hb husers _ hidle hidle' =>
    rw [hb]
    exact T.purse_write hplayer hcopy hkey husers hidle hidle'
  | join sock key rec hth hb husers _ hidle' =>
    subst hth
    rw [hb]
    exact T.purse_join husers ⟨rfl, rfl, fun k => rfl⟩ hidle'
  | ruin off hop hb husers _ hidle hidle' =>
    obtain ⟨a', ha', hop⟩ := hop
    obtain rfl := Option.some.inj (T.action.symm.trans ha')
    rw [hb]
    rcases hkey : keyAt p.shared.users off with _ | key
    · refine T.purse_same (fun k => ?_) (hidle.same hidle').float
      rw [husers, balanceOf_burnAt_of_ne]
      rw [hkey]
      rintro ⟨⟩
    · exact T.purse_ruin hop hkey husers hidle hidle'

/-! ### What the house allows -/

/-- What is put up is new to the market and to everybody. -/
theorem allowed_offer {tags : Tags} {price : ℤ} {name : Bytes}
    (hop : a.op = .marketAdd d tags price name) :
    (Deal.offer ⟨d, tags, price, cstr maxNameLen name⟩ : ServerDeal).Allowed houseTerms
      p.house := by
  have hI := T.before.located
  have hplacing := hI.placing th T.mem
  obtain ⟨hadds, hcarries, hplayer⟩ := adds_of_marketAdd T.not_resets
    (rollback_of_placing hplacing) T.action hop
  have hmem : d ∈ th.carries := by
    rw [hcarries]
    exact List.mem_singleton_self _
  obtain ⟨hdoc, hname⟩ := hplacing.adds T.not_resets hadds
  have honly := (hI.stores _ hdoc).kept
    (List.mem_append_right _ (List.mem_flatMap.2 ⟨th, T.mem, hmem⟩))
  refine ⟨?_, fun k => ?_⟩
  · rintro ⟨slot, hslot, hactive, hshown⟩
    have hid : slot.docId = d := congrArg DocFile.docId hshown
    refine hI.not_active T.mem hmem (hid ▸ ?_)
    exact List.mem_map_of_mem (List.mem_filter.2 ⟨hslot, hactive⟩)
  · rintro ⟨hk, ⟨hget, -⟩ | ⟨⟨u, hu, htaking⟩, -⟩⟩
    · have hnone := honly.2 _ (userDir_ne_masterDir hk)
      exact Option.some_ne_none _ (hget.symm.trans hnone)
    · obtain ⟨hplayer', hcarries'⟩ := carries_of_taking htaking
      obtain ⟨j, hj⟩ := List.getElem?_of_mem hu
      obtain rfl := Pool.hands_unique hI.hands_nodup hj T.thread hcarries' hmem
      obtain rfl := Option.some.inj (hj.symm.trans T.thread)
      rw [hplayer] at hplayer'
      cases hplayer'

/-- An order is put up in a free place, and pays. -/
theorem allowed_post {tags : Tags} {bounty : ℤ} (hop : a.op = .npcAdd n tags bounty)
    (hfree : p.shared.npcs.findIdx? (fun npc => !npc.active) = some i)
    (hdeal : th.deal p.shared c a.op = some (.post i (n, tags, bounty))) :
    (Deal.post i (n, tags, bounty) : ServerDeal).Allowed houseTerms p.house := by
  constructor
  · obtain ⟨hlt, hinactive, -⟩ := List.findIdx?_eq_some_iff_getElem.1 hfree
    show orderAt p.shared.npcs i = none
    rw [orderAt_of_getElem? (List.getElem?_eq_getElem hlt), if_neg]
    simpa using hinactive
  · have hboard := orders_step th (fun m hm => by rw [hop] at hm; cases hm) T.exec
    rw [hdeal] at hboard
    have horder : orderAt p'.shared.npcs i = some (n, tags, bounty) := by
      rw [hboard]
      exact Function.update_self i _ _
    obtain ⟨npc, hnpc, hactive, heq⟩ := orderAt_eq_some.1 horder
    have hpays := T.after.paying.shared npc (List.mem_of_getElem? hnpc) hactive
    have hbounty : npc.bounty = bounty := congrArg (·.2.2) heq
    exact hbounty ▸ hpays

/-- **Who buys can pay.** -/
theorem allowed_buy {sock : ℕ} (hth : th = .session sock key (.buy doc.docId (.take rec off)))
    (hshelf : doc ∈ p.shared.market.docs) (hidle : Idle th) :
    (Deal.buy key doc : ServerDeal).Allowed houseTerms p.house := by
  subst hth
  refine ⟨hshelf, rec.money, T.purse_own rfl hidle rfl, ?_⟩
  obtain ⟨slot, hslot, hactive, rfl⟩ := hshelf
  obtain ⟨doc', hdoc', hid, hprice⟩ := T.before.budgeted _ T.mem slot.docId rec.money rfl
  obtain rfl := T.before.located.doc_eq hdoc' (T.before.located.shows slot hslot hactive) hid
  exact hprice

/-- **Who sells owns the documents**, and they are what the order asks for. -/
theorem allowed_sell {sock : ℕ} {ds : List ℤ} {npc : NPCSlot}
    (hth : th = .session sock key (.sell n ds .take)) (hi : p.shared.npcs[i]? = some npc)
    (horders : npc.orders n = true) (hidle : Idle th) :
    (Deal.sell key i npc.order (th.selling p.shared) : ServerDeal).Allowed houseTerms p.house := by
  subst hth
  refine ⟨?_, fun doc hdoc => ?_, ?_, ?_⟩
  · show orderAt p.shared.npcs i = some npc.order
    rw [orderAt_of_getElem? hi, if_pos ((Bool.and_eq_true _ _).mp horders).1]
  · obtain ⟨d, -, hget⟩ := List.mem_filterMap.1 hdoc
    obtain rfl := T.before.numbered _ d doc hget
    refine (T.owned_own rfl).2 (.inl ⟨hget, ?_⟩)
    rw [hidle.giving]
    exact List.not_mem_nil
  · obtain ⟨sales, hS⟩ := T.before.sales
    obtain ⟨-, tags, hchecked, hwithin⟩ := hS.right t _ T.thread
    have hcovers := hwithin npc (List.mem_of_getElem? hi) horders
    rw [← hchecked.filesTags] at hcovers
    exact hcovers
  · exact purseOf_ne_none ((T.before.accounts.thread t _ T.thread).known key rfl)

/-- **What is discarded is owned**: a sale does not lose the documents it is for. -/
theorem allowed_discard (hop : a.op = .unlink (.user key) d)
    (hget : p.shared.files.get (userDir p.shared.cwd key.bytes) d = some doc) (hidle : Idle th) :
    (Deal.discard key doc : ServerDeal).Allowed houseTerms p.house := by
  obtain rfl : doc.docId = d := T.before.numbered _ d doc hget
  have hkey : key.Plain := T.guard.place.plain a.op T.op_at key (by
    rw [hop]
    exact List.mem_singleton_self key)
  refine ⟨hkey, .inl ⟨hget, fun hsold => ?_⟩⟩
  rcases T.mem_sold.1 hsold with hgiving | ⟨j, u, hj, hu, hgiving⟩
  · rw [hidle.giving] at hgiving
    cases hgiving
  · have hspares := (T.guard.sale.others a.op T.op_at u (mem_othersAt hj hu)).files
    refine hspares _ (relies_of_giving hgiving p.shared.cwd).2 ?_
    rw [hop]
    exact List.mem_singleton_self _

/-- **The house allows every deal.** -/
theorem allowed (hdeal : th.deal p.shared c a.op = some y) : y.Allowed houseTerms p.house := by
  have hA := T.before.accounts.thread t th T.thread
  have hS := T.before.balanced.thread t th T.thread
  have hstep := T.step
  rw [hdeal] at hstep
  have haccount : ∀ {key}, th.player = some key → p.purseOf key ≠ none := by
    intro key hplayer
    refine purseOf_ne_none (hA.known key ?_)
    cases th with
    | session sock key' pc => exact hplayer
    | _ => cases hplayer
  cases hstep with
  | common hb husers _ _ =>
    have hy := hb y rfl
    generalize hop : a.op = o at hdeal
    cases deal_cases hdeal with
    | offer d tags price n hroom => exact T.allowed_offer hop
    | expire => exact allowed_expire p
    | post i n tags bounty hfree => exact T.allowed_post hop hfree (hop ▸ hdeal)
    | withdraw _ f hnpcs hf => exact allowed_withdraw p hf
    | _ => cases hy
  | buy sock key doc rec off hth hb hshelf _ _ hidle _ _ _ =>
    cases hb
    exact T.allowed_buy hth hshelf hidle
  | sell sock key n ds i npc hth hi horders hb _ _ hidle _ _ _ =>
    cases hb
    exact T.allowed_sell hth hi horders hidle
  | discard key d hb _ _ _ hidle _ =>
    obtain ⟨doc, hget, rfl⟩ := Option.map_eq_some_iff.1 hb.symm
    generalize hop : a.op = o at hdeal
    cases deal_cases hdeal with
    | discard _ d doc hget => exact T.allowed_discard hop hget hidle
  | pay sock key target now rec off hth hb _ _ hidle _ =>
    cases hb
    subst hth
    exact ⟨by decide, rec.money, T.purse_own rfl hidle rfl, hS.charges _ _ rfl⟩
  | assign key rec off rec' hplayer _ _ hmoney hb _ _ _ _ =>
    cases hb
    refine ⟨haccount hplayer, ?_⟩
    rcases hmoney with hmoney | hassigns
    · rw [hmoney]
      decide
    · exact hS.assigns _ hassigns
  | join sock key rec hth hb husers _ _ =>
    cases hb
    subst hth
    refine ⟨?_, hS.assigns _ rfl⟩
    show (balanceOf _ _).map _ = none
    rw [balanceOf_eq_none.2 (T.absent_of_join husers), Option.map_none]
  | ruin off _ hb _ _ _ _ =>
    obtain ⟨key, hkey, rfl⟩ := Option.map_eq_some_iff.1 hb.symm
    obtain ⟨rec, hrec, hkey⟩ := keyAt_eq_some.1 hkey
    exact purseOf_ne_none ⟨rec, List.mem_of_getElem? hrec, hkey⟩
  | move _ _ _ _ hb | give _ _ _ hb | settle _ _ _ _ _ _ _ hb => cases hb

/-! ### The house after a step -/

/-- Purchases and sales are made by players. -/
theorem player_of_trading (htrading : a.op.trading = true) : ∃ key, th.player = some key := by
  rcases hdealing : th.dealing with _ | _
  · rw [trading_of_not_dealing hdealing T.not_resets T.action] at htrading
    cases htrading
  · cases th with
    | session sock key pc => exact ⟨key, rfl⟩
    | _ => cases hdealing

/-- The market is set up once. -/
theorem empty_of_marketInit (hop : a.op = .marketInit) : activeIds p.shared.market = [] := by
  have hmoves : th.mayMove = true := by
    by_contra hstill
    have hplacing := unplacing_of_still (Bool.not_eq_true _ ▸ hstill) T.action
    rw [hop] at hplacing
    cases hplacing
  have hroom := T.before.located.opening.roomy T.mem
  have haction := T.action
  have hreset := T.not_resets
  cases th with
  | main pc =>
    cases pc with
    | marketInit => exact hroom
    | seed q =>
      cases haction
      cases q <;> cases hop
    | _ => cases hmoves
  | session sock key pc =>
    cases pc with
    | buy d q =>
      cases haction
      cases q <;> cases hop
    | _ => cases hmoves
  | event v pc =>
    cases pc with
    | spawn q | ageMarket q =>
      cases haction
      cases q <;> cases hop
    | _ => cases hmoves
  | roundEndTimer pc =>
    cases pc with
    | reset q => cases hreset
    | _ => cases hmoves
  | _ => cases hmoves

/-- **A step of the server** is one deal of the house, or none. -/
theorem house : p'.house = houseAfter p.house (th.deal p.shared c a.op) := by
  have hshelf := shelf_step th T.before.located.active_nodup T.empty_of_marketInit
    (fun d hop => T.player_of_trading (by rw [hop]; rfl)) T.exec
  have hboard := orders_step th (fun n hop => T.player_of_trading (by rw [hop]; rfl)) T.exec
  have howns := T.owns T.step
  have hpurse := T.purse T.step
  rcases hdeal : th.deal p.shared c a.op with _ | y <;>
    rw [hdeal] at hshelf hboard howns hpurse <;>
    exact Exchange.ext hshelf howns hpurse hboard

end Turn

/-! ### Runs -/

/-- **A step of the server**, on the side of the house. -/
theorem house_step {l : Label} (hI : Trading (p, hist)) (hG : DealGuard p hist l)
    (hsingle : Single p') (hn : server.next p l = some p') :
    p'.house = houseAfter p.house (dealAt p l) ∧
      ∀ y ∈ dealAt p l, y.Allowed houseTerms p.house := by
  have hI' := trading_step hI hG hn
  cases l with
  | env seconds =>
    obtain rfl := Pool.next_env.1 hn
    exact ⟨rfl, by rintro _ ⟨⟩⟩
  | run t c =>
    obtain ⟨th, a, r, hth, ha, hr, hths⟩ := server_run hn
    have T : Turn p hist t c th a r p' := ⟨hI, hI', hG, hsingle, hth, ha, hr, hths⟩
    have hdeal : dealAt p (.run t c) = th.deal p.shared c a.op := by
      simp only [dealAt, hth, ha, Option.bind_some]
    rw [hdeal]
    exact ⟨T.house, fun y hy => T.allowed hy⟩

/-- **Trading is atomic**: a guarded run of the server is a run of the house, in which every trade
is one deal. -/
theorem makes_of_guard {cwd : Dir} {files : Files} {users : UserDb} {clock : ℕ}
    (hfiles : files.Housed) (hnumbered : files.Numbered) (husers : ∀ rec ∈ users, rec.Sound)
    {x : (Server × List PlaceEvent) × List ServerDeal}
    (hx : dealServer.Reach (fun x l => DealGuard x.1.1 x.1.2 l)
      ((boot cwd files users clock, []), []) x) (hsingle : Single x.1.1) :
    (boot cwd files users clock).house.Makes houseTerms x.2 x.1.1.house := by
  have hI : Single x.1.1 → Trading x.1 ∧
      (boot cwd files users clock).house.Makes houseTerms x.2 x.1.1.house := by
    refine hx.invariant (I := fun x => Single x.1.1 → Trading x.1 ∧
      (boot cwd files users clock).house.Makes houseTerms x.2 x.1.1.house)
      (fun _ => ⟨trading_boot hfiles hnumbered husers clock, .nil⟩) fun x l x' _ hI hG hn hS => ?_
    obtain ⟨hn, hdeals⟩ := System.withHistory_next.1 hn
    obtain ⟨hn, hhist⟩ := System.withHistory_next.1 hn
    obtain ⟨htrading, hmakes⟩ := hI hG.single
    obtain ⟨hhouse, hallowed⟩ := house_step htrading hG hS hn
    refine ⟨?_, ?_⟩
    · have hx : x'.1 = (x'.1.1, x.1.2 ++ placeEventsAt x.1.1 l) := by rw [← hhist]
      rw [hx]
      exact trading_step htrading hG hn
    · rw [hdeals, hhouse]
      rcases hdeal : dealAt x.1.1 l with _ | y
      · rw [Option.toList_none, List.append_nil]
        exact hmakes
      · exact hmakes.deal (hallowed y hdeal)
  exact (hI hsingle).2

/-! ### At rest -/

/-- No command is under way. -/
def Server.AtRest (p : Server) : Prop := ∀ u ∈ p.threads, ∀ key, u.player = some key →
  u.waits = true

/-- **At rest** the house is what the stores say: everybody owns the documents of the sandbox, and
has the stored balance. -/
theorem house_of_atRest (h : p.AtRest) : p.house =
    { shelf := p.shared.market.docs
      owns := fun k => {doc | k.Plain ∧
        p.shared.files.get (userDir p.shared.cwd k.bytes) doc.docId = some doc}
      purse := balanceOf p.shared.users
      board := orderAt p.shared.npcs } := by
  have htaken : ∀ x, x ∉ p.taken := by
    rintro ⟨k, d⟩ ⟨u, hu, htaking⟩
    have hwaits := h u hu k (carries_of_taking htaking).1
    cases u with
    | session sock key pc => cases pc <;> first | cases htaking | cases hwaits
    | _ => cases htaking
  have hsold : ∀ x, x ∉ p.sold := by
    rintro ⟨k, d⟩ ⟨u, hu, hgiving⟩
    have hwaits := h u hu k (relies_of_giving hgiving []).1
    cases u with
    | session sock key pc => cases pc <;> first | cases hgiving | cases hwaits
    | _ => cases hgiving
  have hfloat : ∀ k, (p.threads.map (Thread.float k)).sum = 0 := by
    intro k
    refine List.sum_eq_zero fun x hx => ?_
    obtain ⟨u, hu, rfl⟩ := List.mem_map.1 hx
    by_contra hne
    exact hne (float_of_waits (h u hu k (player_of_float hne)) k)
  refine Exchange.ext rfl (funext fun k => ?_) (funext fun k => ?_) rfl
  · ext doc
    refine and_congr_right fun _ => ?_
    rw [or_iff_left fun h => htaken _ h.1, and_iff_left (hsold _)]
  · show (balanceOf _ k).map _ = _
    rw [hfloat]
    simp

/-! ### What a player can rely on -/

/-- **The house is kept**: a document has one owner, who has bought it or had it at the start, and is
not for sale; nobody is in debt; what is bought twice was put up in between, and so was an order
that is filled twice. -/
structure HouseKept (E : Exchange Key DocFile ℕ Order) (p : Server) (deals : List ServerDeal) :
    Prop where
  owner : ∀ k k' doc, doc ∈ p.ownedBy k → doc ∈ p.ownedBy k' → k = k'
  unsold : ∀ k doc, doc ∈ p.ownedBy k → doc ∉ p.shared.market.docs
  bought : ∀ k doc, doc ∈ p.ownedBy k → doc ∈ E.owns k ∨ .buy k doc ∈ deals
  solvent : ∀ k x, p.purseOf k = some x → x = -1 ∨ 0 ≤ x
  relisted : ∀ as bs cs k k' doc, deals = as ++ .buy k doc :: bs ++ .buy k' doc :: cs →
    .offer doc ∈ bs
  reposted : ∀ as bs cs k k' i o o' ds ds',
    deals = as ++ .sell k i o ds :: bs ++ .sell k' i o' ds' :: cs → .post i o' ∈ bs

/-- Every run of the house keeps it. -/
theorem houseKept_of_makes {E : Exchange Key DocFile ℕ Order} {deals : List ServerDeal}
    (hE : E.Exclusive) (hsolid : E.Solid houseTerms) (h : E.Makes houseTerms deals p.house) :
    HouseKept E p deals where
  owner := (h.exclusive hE).owner
  unsold := (h.exclusive hE).unsold
  bought _ _ hdoc := Exchange.owned_of_makes h hdoc
  solvent := (h.solid (by decide) hsolid).purse
  relisted as bs cs k k' doc heq := by
    rw [heq, List.append_cons, Exchange.makes_append] at h
    obtain ⟨E', h, -⟩ := h
    exact Exchange.offer_between h
  reposted as bs cs k k' i o o' ds ds' heq := by
    rw [heq, List.append_cons, Exchange.makes_append] at h
    obtain ⟨E', h, -⟩ := h
    exact Exchange.post_between h

/-- **What a player can rely on**, in a guarded run on a data directory in which no document is in
two sandboxes. -/
theorem houseKept_of_guard {cwd : Dir} {files : Files} {users : UserDb} {clock : ℕ}
    (hfiles : files.Housed) (hnumbered : files.Numbered) (husers : ∀ rec ∈ users, rec.Sound)
    (hone : ∀ (k k' : Key) (d : ℤ) (doc : DocFile), k.Plain → k'.Plain →
      files.get (userDir cwd k.bytes) d = some doc →
      files.get (userDir cwd k'.bytes) d = some doc → k = k')
    {x : (Server × List PlaceEvent) × List ServerDeal}
    (hx : dealServer.Reach (fun x l => DealGuard x.1.1 x.1.2 l)
      ((boot cwd files users clock, []), []) x) (hsingle : Single x.1.1) :
    HouseKept (boot cwd files users clock).house x.1.1 x.2 := by
  have hrest : (boot cwd files users clock).AtRest := by
    intro u hu key hplayer
    obtain rfl := List.mem_singleton.1 hu
    cases hplayer
  have hhouse := house_of_atRest hrest
  refine houseKept_of_makes ?_ ?_ (makes_of_guard hfiles hnumbered husers hx hsingle)
  · rw [hhouse]
    refine ⟨?_, ?_⟩
    · rintro k k' doc ⟨hk, hget⟩ ⟨hk', hget'⟩
      exact hone k k' doc.docId doc hk hk' hget hget'
    · rintro k doc - ⟨slot, hslot, -⟩
      cases hslot
  · rw [hhouse]
    refine ⟨?_, ?_⟩
    · rintro i o ho
      have ho : orderAt (boot cwd files users clock).shared.npcs i = some o := ho
      obtain ⟨npc, hnpc, -⟩ := orderAt_eq_some.1 ho
      cases hnpc
    · intro k x hx
      obtain ⟨⟨rec, off⟩, hf, rfl⟩ := Option.map_eq_some_iff.1 hx
      exact (husers rec (userdbFind_mem hf).1).symm

/-! ### Scripts -/

/-- Alice buys a document, Bob sends a rumor, and Alice sells the document: three deals. -/
theorem makes_alice : ∃ x : (Server × List PlaceEvent) × List ServerDeal,
    dealServer.Reach (fun x l => DealGuard x.1.1 x.1.2 l) ((freshBoot, []), []) x ∧
    (∃ doc ∈ seedDocs, ∃ o ∈ seedNpcs, x.2.drop 9 = [.buy (Key.ofBytes (utf8 "alice")) doc,
      .pay (Key.ofBytes (utf8 "bob")) rumorFee,
      .sell (Key.ofBytes (utf8 "alice")) 0 o [doc]]) ∧
    freshBoot.house.Makes houseTerms x.2 x.1.1.house := by
  obtain ⟨x, hx, hf⟩ := dealServer.exists_reach_of_any
    (fun x l => DealGuard x.1.1 x.1.2 l) ((freshBoot, []), []) ledgerScript
    (fun x => decide ((∃ doc ∈ seedDocs, ∃ o ∈ seedNpcs,
      x.2.drop 9 = [.buy (Key.ofBytes (utf8 "alice")) doc,
        .pay (Key.ofBytes (utf8 "bob")) rumorFee,
        .sell (Key.ofBytes (utf8 "alice")) 0 o [doc]]) ∧ Single x.1.1))
    (by decide +kernel)
  obtain ⟨hdeals, hsingle⟩ := of_decide_eq_true hf
  exact ⟨x, hx, hdeals, makes_of_guard (fun _ _ => rfl) (by rintro _ _ _ ⟨⟩) (by rintro _ ⟨⟩) hx
    hsingle⟩

/-- Alice buys a document and throws it away. -/
theorem houseKept_alice : ∃ x : (Server × List PlaceEvent) × List ServerDeal,
    dealServer.Reach (fun x l => DealGuard x.1.1 x.1.2 l) ((freshBoot, []), []) x ∧
    (∃ doc ∈ seedDocs, (x.2.drop 8).take 2 = [.buy (Key.ofBytes (utf8 "alice")) doc,
      .discard (Key.ofBytes (utf8 "alice")) doc]) ∧
    HouseKept freshBoot.house x.1.1 x.2 := by
  obtain ⟨x, hx, hf⟩ := dealServer.exists_reach_of_any
    (fun x l => DealGuard x.1.1 x.1.2 l) ((freshBoot, []), []) disposedScript
    (fun x => decide ((∃ doc ∈ seedDocs,
      (x.2.drop 8).take 2 = [.buy (Key.ofBytes (utf8 "alice")) doc,
        .discard (Key.ofBytes (utf8 "alice")) doc]) ∧ Single x.1.1))
    (by decide +kernel)
  obtain ⟨hdeals, hsingle⟩ := of_decide_eq_true hf
  exact ⟨x, hx, hdeals, houseKept_of_guard (fun _ _ => rfl) (by rintro _ _ _ ⟨⟩) (by rintro _ ⟨⟩)
    (by rintro _ _ _ _ _ _ ⟨⟩) hx hsingle⟩

end UnderFlow
