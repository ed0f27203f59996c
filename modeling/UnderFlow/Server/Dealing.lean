import UnderFlow.Server.House

/-!
# Deals of one thread

* `DealStep` : what a step does to the sandboxes, to the database and to the hands of its thread,
  beside the deal it makes.
* `buy_deal`, `sell_deal`, `plain_deal` : the steps of a purchase, of a sale, and of all else.
* `deal_step` : the step of any thread.
-/

namespace UnderFlow

variable {s s' : Shared} {c : Choice} {o : Op} {th th' : Thread} {a : Action Thread} {sock off : ℕ}
  {key k : Key} {d n : ℤ} {doc : DocFile} {b : Option ServerDeal} {ds : List ℤ}

/-- The deal concerns no player. -/
def commonDeal : ServerDeal → Bool
  | .offer _ | .expire _ | .post _ _ | .withdraw _ => true
  | _ => false

/-- The sandboxes hold the same documents. -/
def SameSandboxes (s s' : Shared) : Prop := ∀ key : Key, key.Plain → ∀ d,
  s'.files.get (userDir s'.cwd key.bytes) d = s.files.get (userDir s.cwd key.bytes) d

/-- What a thread has in hand stays the same. -/
structure SameHands (th th' : Thread) : Prop where
  taking : th'.taking = th.taking
  giving : th'.giving = th.giving
  float : ∀ k, th'.float k = th.float k

/-- The thread has nothing in hand. -/
structure Idle (th : Thread) : Prop where
  taking : th.taking = none
  giving : th.giving = []
  float : ∀ k, th.float k = 0

theorem Idle.same (h : Idle th) (h' : Idle th') : SameHands th th' :=
  ⟨h'.taking.trans h.taking.symm, h'.giving.trans h.giving.symm,
    fun k => (h'.float k).trans (h.float k).symm⟩

/-- **What a step does** beside its deal. -/
inductive DealStep (s : Shared) (th : Thread) (b : Option ServerDeal) (s' : Shared)
    (th' : Thread) : Prop
  | common (hb : ∀ x ∈ b, commonDeal x = true) (husers : s'.users = s.users)
      (hfiles : SameSandboxes s s') (hhands : SameHands th th')
  | buy (sock : ℕ) (key : Key) (doc : DocFile) (rec : UserRecord) (off : ℕ)
      (hth : th = .session sock key (.buy doc.docId (.take rec off))) (hb : b = some (.buy key doc))
      (hshelf : doc ∈ s.market.docs) (husers : s'.users = s.users) (hfiles : SameSandboxes s s')
      (hidle : Idle th) (htaking : th'.taking = some (key, doc.docId)) (hgiving : th'.giving = [])
      (hfloat : ∀ k, th'.float k = if key = k then -doc.basePrice else 0)
  | move (key : Key) (d : ℤ) (doc : DocFile) (hplayer : th.player = some key) (hb : b = none)
      (husers : s'.users = s.users) (hget : s.files.get (masterDir s.cwd) d = some doc)
      (hfiles : s'.files = (s.files.del (masterDir s.cwd) d).put (userDir s.cwd key.bytes) d doc)
      (htaking : th.taking = some (key, d)) (htaking' : th'.taking = none)
      (hgiving : th.giving = []) (hgiving' : th'.giving = [])
      (hfloat : ∀ k, th'.float k = th.float k)
  | sell (sock : ℕ) (key : Key) (n : ℤ) (ds : List ℤ) (i : ℕ) (npc : NPCSlot)
      (hth : th = .session sock key (.sell n ds .take)) (hi : s.npcs[i]? = some npc)
      (horders : npc.orders n = true) (hb : b = some (.sell key i npc.order (th.selling s)))
      (husers : s'.users = s.users) (hfiles : SameSandboxes s s') (hidle : Idle th)
      (htaking : th'.taking = none) (hgiving : th'.giving = ds.map fun d => (key, d))
      (hfloat : ∀ k, th'.float k = if key = k then npc.bounty else 0)
  | give (key : Key) (d : ℤ) (hplayer : th.player = some key) (hb : b = none)
      (husers : s'.users = s.users)
      (hfiles : s'.files = (s.files.unlink (userDir s.cwd key.bytes) d).2)
      (htaking : th.taking = none) (htaking' : th'.taking = none)
      (hgiving : th.giving = (key, d) :: th'.giving) (hfloat : ∀ k, th'.float k = th.float k)
  | discard (key : Key) (d : ℤ)
      (hb : b = (s.files.get (userDir s.cwd key.bytes) d).map (.discard key))
      (hplain : key.Plain) (husers : s'.users = s.users)
      (hfiles : s'.files = (s.files.unlink (userDir s.cwd key.bytes) d).2)
      (hidle : Idle th) (hidle' : Idle th')
  | settle (key : Key) (rec : UserRecord) (off : ℕ) (x : ℤ) (hplayer : th.player = some key)
      (hcopy : th.copy = some (rec, off)) (hquote : th.quotes = some rec.money) (hb : b = none)
      (husers : s'.users = s.users.set off { rec with money := rec.money + x })
      (hfiles : SameSandboxes s s') (htaking : th.taking = none) (hgiving : th.giving = [])
      (hfloat : ∀ k, th.float k = if key = k then x else 0) (hidle : Idle th')
  | pay (sock : ℕ) (key target : Key) (now : ℕ) (rec : UserRecord) (off : ℕ)
      (hth : th = .session sock key (.rumor target (.update now rec off)))
      (hb : b = some (.pay key rumorFee))
      (husers : s'.users = s.users.set off { rec with money := rec.money - rumorFee })
      (hfiles : SameSandboxes s s') (hidle : Idle th) (hidle' : Idle th')
  | assign (key : Key) (rec : UserRecord) (off : ℕ) (rec' : UserRecord)
      (hplayer : th.player = some key) (hcopy : th.copy = some (rec, off))
      (hkey : rec'.key = rec.key)
      (hmoney : rec'.money = initialMoney ∨ th.assigns = some rec'.money)
      (hb : b = some (.assign key rec'.money)) (husers : s'.users = s.users.set off rec')
      (hfiles : SameSandboxes s s') (hidle : Idle th) (hidle' : Idle th')
  | join (sock : ℕ) (key : Key) (rec : UserRecord) (hth : th = .login sock (.append key rec))
      (hb : b = some (.join rec.key rec.money)) (husers : s'.users = s.users ++ [rec])
      (hfiles : SameSandboxes s s') (hidle' : Idle th')
  | ruin (off : ℕ) (hop : ∃ a, th.action = some a ∧ a.op = .userdbBurnAt off)
      (hb : b = (keyAt s.users off).map .ruin) (husers : s'.users = userdbBurnAt s.users off)
      (hfiles : SameSandboxes s s') (hidle : Idle th) (hidle' : Idle th')

/-! ### Operations -/

theorem SameSandboxes.of_files (hcwd : s'.cwd = s.cwd) (hfiles : s'.files = s.files) :
    SameSandboxes s s' := by
  intro key _ d
  rw [hcwd, hfiles]

theorem sandboxes_of_store {r : o.Ret} (ho : o.store ≠ some .files)
    (hr : o.exec s c = some (s', r)) : SameSandboxes s s' :=
  .of_files (exec_frame hr).cwd ((exec_frame hr).files ho)

/-- An operation that makes no deal of a player, on other stores than the files and the database. -/
theorem DealStep.quiet {r : o.Ret} (hr : o.exec s c = some (s', r)) (hu : o.store ≠ some .users)
    (hf : o.store ≠ some .files) (hb : ∀ x ∈ b, commonDeal x = true) (hhands : SameHands th th') :
    DealStep s th b s' th' :=
  .common hb ((exec_frame hr).users hu) (sandboxes_of_store hf hr) hhands

/-- The command has something in hand. -/
def Command.inHand : Command → Bool
  | .buy _ (.stat _ _ _) | .buy _ (.move _ _ _) | .buy _ (.charge _ _ _) => true
  | .sell _ _ (.dispose _ _ _ _) | .sell _ _ (.lookup _ _) | .sell _ _ (.credit _ _ _ _) => true
  | _ => false

theorem idle_session {pc : Command} (h : pc.inHand = false) : Idle (.session sock key pc) := by
  have hfloat : pc.float = 0 := by
    cases pc with
    | buy d q => cases q <;> first | rfl | cases h
    | sell n ds q => cases q <;> first | rfl | cases h
    | _ => rfl
  refine ⟨?_, ?_, fun k => ?_⟩
  · cases pc with
    | buy d q => cases q <;> first | rfl | cases h
    | _ => rfl
  · cases pc with
    | sell n ds q => cases q <;> first | rfl | cases h
    | _ => rfl
  · rw [Thread.float, hfloat, ite_self]

/-! ### A purchase -/

/-- **The step of a purchase.** -/
theorem buy_deal {q : Buy} {pc' : Command} {r : (handleBuy sock key d q).op.Ret}
    (hr : (handleBuy sock key d q).op.exec s c = some (s', r))
    (hok : (handleBuy sock key d q).op.rewrites = true → c.ok = true)
    (hpc : Command.resume (.buy d) true ((handleBuy sock key d q).next r) = .cont pc')
    (hroll : ∀ slot, q ≠ .rollback slot) (hroll' : ∀ slot, pc' ≠ .buy d (.rollback slot)) :
    DealStep s (.session sock key (.buy d q))
      ((Thread.session sock key (.buy d q)).deal s c (handleBuy sock key d q).op) s'
      (.session sock key pc') := by
  cases q with
  | find | count slot | lookup slot =>
    refine .quiet hr (by simp [handleBuy]) (by simp [handleBuy]) (by rintro _ ⟨⟩) ?_
    simp only [handleBuy] at hpc
    split at hpc <;> (try split_ifs at hpc) <;> cases hpc <;>
      exact (idle_session rfl).same (idle_session rfl)
  | take rec off =>
    cases hr
    rcases marketTake_cases s.market d with ⟨e, he⟩ | ⟨slot, slots, hu, -, he⟩
    · simp only [handleBuy, he] at hpc
      refine .common ?_ rfl (.of_files rfl rfl) ?_
      · simp only [handleBuy, Thread.deal, he]
        rintro _ ⟨⟩
      · cases e <;> cases hpc <;> exact (idle_session rfl).same (idle_session rfl)
    · obtain ⟨hactive, rfl⟩ : slot.active = true ∧ slot.docId = d := by
        simpa [MarketSlot.lists] using (mem_of_updateFirst hu).2
      simp only [handleBuy, he] at hpc
      cases hpc
      refine .buy sock key slot.doc rec off rfl ?_ ⟨slot, (mem_of_updateFirst hu).1, hactive, rfl⟩
        rfl (.of_files rfl rfl) (idle_session rfl) rfl rfl fun k => rfl
      simp only [handleBuy, Thread.deal, he]
      rfl
  | stat slot rec off =>
    refine .quiet hr (by simp [handleBuy]) (by simp [handleBuy]) (by rintro _ ⟨⟩) ?_
    simp only [handleBuy] at hpc
    split_ifs at hpc <;> cases hpc
    · exact ⟨rfl, rfl, fun k => rfl⟩
    · exact absurd rfl (hroll' slot)
  | move slot rec off =>
    simp only [handleBuy, Op.exec] at hr
    split at hr
    · cases hr
      cases hpc
      exact absurd rfl (hroll' slot)
    · rename_i fs hfs
      cases hr
      cases hpc
      split_ifs at hfs
      obtain ⟨doc, hget, -, rfl⟩ := Files.rename_eq_some.1 hfs
      exact .move key d doc rfl rfl rfl hget rfl rfl rfl rfl rfl fun k => rfl
  | rollback slot => exact absurd rfl (hroll slot)
  | charge slot rec off =>
    cases hpc
    simp only [handleBuy, Op.exec, hok rfl, ↓reduceIte] at hr
    cases hr
    exact .settle key rec off (-slot.basePrice) rfl rfl rfl rfl rfl (.of_files rfl rfl) rfl rfl
      (fun k => rfl) (idle_session rfl)
  | reply slot rec | announce =>
    cases hpc
    exact .quiet hr (by simp [handleBuy]) (by simp [handleBuy]) (by rintro _ ⟨⟩)
      ((idle_session rfl).same (idle_session rfl))

/-! ### A sale -/

/-- **The step of a sale.** -/
theorem sell_deal {q : Sell} {pc' : Command} {r : (handleSell sock key n ds q).op.Ret}
    (hr : (handleSell sock key n ds q).op.exec s c = some (s', r))
    (hworks : (handleSell sock key n ds q).op.Works s c)
    (hok : (handleSell sock key n ds q).op.rewrites = true → c.ok = true)
    (hdb : (Thread.session sock key (.sell n ds q)).trustsDb = true → c.ok = true)
    (hfits : (Thread.session sock key (.sell n ds q)).CreditFits)
    (hfound : (userdbFind s.users key).isSome = true)
    (hdet : ∀ npc sold rec, q ≠ .creditIndeterminate npc sold rec)
    (hpc : Command.resume (.sell n ds) false ((handleSell sock key n ds q).next r) = .cont pc') :
    DealStep s (.session sock key (.sell n ds q))
      ((Thread.session sock key (.sell n ds q)).deal s c (handleSell sock key n ds q).op) s'
      (.session sock key pc') := by
  cases q with
  | findNpc | frozen npc df todo u =>
    refine .quiet hr (by simp [handleSell]) (by simp [handleSell]) (by rintro _ ⟨⟩) ?_
    simp only [handleSell, Sell.check] at hpc
    split at hpc <;> (try split at hpc) <;> (try split_ifs at hpc) <;> cases hpc <;>
      exact (idle_session rfl).same (idle_session rfl)
  | has npc d todo u | read npc d todo u =>
    refine .quiet hr (by simp [handleSell]) (by simp [handleSell]) (by rintro _ ⟨⟩) ?_
    simp only [handleSell] at hpc
    split at hpc <;> cases hpc <;> exact (idle_session rfl).same (idle_session rfl)
  | take =>
    rcases exec_npcTake hr with ⟨rfl, rfl, hnone⟩ | ⟨npc, npcs, rfl, rfl, htake⟩
    · cases hpc
      refine .common ?_ rfl (.of_files rfl rfl) ((idle_session rfl).same (idle_session rfl))
      simp only [handleSell, Thread.deal, findIdx?_of_updateFirst_eq_none hnone, Option.bind_none]
      rintro _ ⟨⟩
    · obtain ⟨i, hfind, hi, horders, rfl⟩ := findIdx?_of_updateFirst htake
      have horder : orderAt s.npcs i = some npc.order := by
        rw [orderAt_of_getElem? hi, if_pos ((Bool.and_eq_true _ _).mp horders).1]
      cases hpc
      refine .sell sock key n ds i npc rfl hi horders ?_ rfl (.of_files rfl rfl) (idle_session rfl)
        ?_ ?_ ?_
      · simp only [handleSell, Thread.deal, hfind, horder, Option.bind_some]
        rfl
      · cases ds <;> rfl
      · cases ds <;> rfl
      · cases ds <;> exact fun k => rfl
  | dispose npc d todo sold =>
    obtain rfl := exec_unlink hworks hr
    cases hpc
    refine .give key d rfl ?_ rfl rfl rfl ?_ ?_ ?_
    · simp [handleSell, Thread.deal, Thread.giving]
    · cases todo <;> rfl
    · cases todo <;> rfl
    · cases todo <;> exact fun k => rfl
  | lookup npc sold =>
    obtain ⟨⟨rec, off⟩, hf⟩ := Option.isSome_iff_exists.1 hfound
    obtain ⟨rfl, ⟨-, x, hx, rfl⟩ | ⟨hnone, -⟩⟩ := exec_find hr
    · cases hpc
      exact .common (by rintro _ ⟨⟩) rfl (.of_files rfl rfl) ⟨rfl, rfl, fun k => rfl⟩
    · rw [hnone (hdb rfl)] at hf
      cases hf
  | credit npc sold rec off =>
    have hsum : wrapInt32 (rec.money + npc.bounty) = rec.money + npc.bounty := wrapInt32_eq hfits
    cases hpc
    simp only [handleSell, Op.exec, hok rfl, hsum, ↓reduceIte] at hr
    cases hr
    exact .settle key rec off npc.bounty rfl rfl rfl rfl rfl (.of_files rfl rfl) rfl rfl
      (fun k => rfl) (idle_session rfl)
  | creditIndeterminate npc sold rec => exact absurd rfl (hdet npc sold rec)
  | reply npc sold rec old | announce =>
    cases hpc
    exact .quiet hr (by simp [handleSell]) (by simp [handleSell]) (by rintro _ ⟨⟩)
      ((idle_session rfl).same (idle_session rfl))

/-! ### All other threads -/

/-- The thread is buying or selling. -/
def Thread.dealing : Thread → Bool
  | .session _ _ (.buy _ _) | .session _ _ (.sell _ _ _) => true
  | _ => false

/-- The operations of purchases, of sales and of resets alone. -/
def Op.trading : Op → Bool
  | .marketTake _ | .npcTake _ | .rename _ _ _ | .unlink (.entry _) _ | .userdbUpdateIndeterminate
  | .userdbResetRound _ => true
  | _ => false

theorem idle_of_not_dealing (h : th.dealing = false) : Idle th := by
  cases th with
  | session sock key pc => cases pc <;> first | exact idle_session rfl | cases h
  | _ => exact ⟨rfl, rfl, fun k => rfl⟩

/-- A thread that does not deal has nothing in hand after its step. -/
theorem idle_after (h : th.dealing = false) (ha : th.action = some a)
    (hs : a.Steps s c s' th') : Idle th' := by
  have ho := thread_origin ha hs
  cases th' with
  | session sock key pc' =>
    rcases ho with ⟨pc, rfl, hs⟩ | ⟨rfl, -⟩
    · have ho := session_origin hs
      cases pc' with
      | buy d q' =>
        rcases ho with ⟨rfl, -⟩ | ⟨q, rfl, -⟩
        · exact idle_session rfl
        · cases h
      | sell n ds q' =>
        rcases ho with ⟨rfl, -⟩ | ⟨q, rfl, -⟩
        · exact idle_session rfl
        · cases h
      | _ => exact idle_session rfl
    · exact idle_session rfl
  | _ => exact ⟨rfl, rfl, fun k => rfl⟩

theorem trading_of_ordinary {o : Op} (h : o.ordinary = true) : o.trading = false := by
  cases o with
  | unlink f d => cases f <;> first | rfl | cases h
  | _ => first | rfl | cases h

theorem clientLoop_trading {pc : Command}
    (h : (Thread.session sock key pc).dealing = false) :
    (clientLoop sock key pc).op.trading = false := by
  cases pc with
  | buy d q | sell n ds q => cases h
  | selfRaid q => cases q <;> rfl
  | _ => exact trading_of_ordinary (clientLoop_ordinary rfl)

theorem trading_of_not_dealing (h : th.dealing = false) (hreset : th.resets = false)
    (ha : th.action = some a) : a.op.trading = false := by
  cases th with
  | main pc =>
    cases ha
    cases pc with
    | seed q => cases q <;> rfl
    | _ => rfl
  | session sock key pc =>
    cases ha
    exact clientLoop_trading h
  | event v pc =>
    cases ha
    cases pc with
    | leak q => exact trading_of_ordinary (firePublicLeak_ordinary q)
    | roundEnd q => exact trading_of_ordinary (fireRoundEndCountdown_ordinary _ q)
    | spawn q | ageNpcs q | ageMarket q | raid q => cases q <;> rfl
    | _ => rfl
  | raidTimeout serial pc =>
    cases ha
    cases pc with
    | burn key todo q => exact trading_of_ordinary (burnUserByKey_ordinary _ q)
    | _ => rfl
  | roundEndTimer pc =>
    cases ha
    cases pc <;> first | rfl | cases hreset
  | login sock pc | disconnect sock pc | npcSequence pc | leakRecovery mask dur pc =>
    cases ha
    cases pc <;> rfl
  | finished => cases ha

/-- The deals on the boards concern no player, but for purchases and sales. -/
theorem common_of_store (hu : o.store ≠ some .users) (hf : o.store ≠ some .files)
    (ho : o.trading = false) : ∀ x ∈ th.deal s c o, commonDeal x = true := by
  intro x hx
  cases deal_cases hx <;> first | rfl | exact absurd rfl hu | exact absurd rfl hf | cases ho

/-- The sandboxes after a write in the master directory. -/
theorem sandboxes_of_master (hcwd : s'.cwd = s.cwd)
    (hget : ∀ dir i, dir ≠ masterDir s.cwd → s'.files.get dir i = s.files.get dir i) :
    SameSandboxes s s' := by
  intro key hkey d
  rw [hcwd]
  exact hget _ d (userDir_ne_masterDir hkey)

/-- **The files after a step** of a thread that does not deal. -/
theorem files_deal (hu : o.store ≠ some .users) (hf : o.store = some .files)
    (ho : o.trading = false) (hW : s.files.Housed) (hplain : ∀ key ∈ o.owners, key.Plain)
    (hworks : o.Works s c) {r : o.Ret} (hr : o.exec s c = some (s', r)) (hidle : Idle th)
    (hidle' : Idle th') : DealStep s th (th.deal s c o) s' th' := by
  have husers := (exec_frame hr).users hu
  cases o <;> simp only [Op.store, Option.some.injEq, reduceCtorEq] at hf
  case rename src dst d => cases ho
  case unlink f d =>
    obtain rfl := exec_unlink hworks hr
    have hok : c.ok = true := hworks
    cases f with
    | master =>
      refine .common (by rintro _ ⟨⟩) rfl (sandboxes_of_master rfl fun dir i hdir => ?_)
        (hidle.same hidle')
      rw [Files.get_unlink, if_neg fun h => hdir h.1]
    | user key =>
      refine .discard key d ?_ (hplain key (List.mem_singleton_self key)) rfl rfl hidle hidle'
      simp only [Thread.deal, hok, hidle.giving, List.not_mem_nil, not_false_eq_true, and_self,
        ↓reduceIte]
    | entry name => cases ho
  case writeMaster doc =>
    obtain ⟨-, rfl⟩ := exec_write hworks hr
    refine .common (by rintro _ ⟨⟩) rfl (sandboxes_of_master rfl fun dir i hdir => ?_)
      (hidle.same hidle')
    rw [Files.get_put, if_neg fun h => hdir h.1]
  case mkdir f =>
    refine .common (by rintro _ ⟨⟩) husers (fun key _ d => ?_) (hidle.same hidle')
    rw [(exec_frame hr).cwd]
    cases files_step hr with
    | same hfs => rw [hfs]
    | mkdir f' _ hfs => exact get_mkdir_eq hW hfs d
    | move _ _ _ _ hop | remove _ _ hop | write _ hop => cases hop

/-- **The database after a step** of a thread that does not deal. -/
theorem users_deal (h : th.dealing = false) (hA : Account s th)
    (hok : a.op.rewrites = true → c.ok = true) (hdb : th.trustsDb = true → c.ok = true)
    (ho : a.op.trading = false) (hu : a.op.store = some .users) (ha : th.action = some a)
    {r : a.op.Ret} (hr : a.op.exec s c = some (s', r)) (hidle' : Idle th') :
    DealStep s th (th.deal s c a.op) s' th' := by
  have hidle := idle_of_not_dealing h
  have hfiles : SameSandboxes s s' := sandboxes_of_store (by rw [hu]; rintro ⟨⟩) hr
  have hop := users_op ha hu
  have hact : ∃ a', th.action = some a' ∧ a'.op = a.op := ⟨a, ha, rfl⟩
  generalize a.op = o at *
  cases hop with
  | append sock key rec hth =>
    have hok : c.ok = true := hdb (by rw [hth]; rfl)
    simp only [Op.exec, hok, ↓reduceIte] at hr
    cases hr
    exact .join sock key rec hth (by simp [Thread.deal, hok]) rfl hfiles hidle'
  | update off rec' hth =>
    simp only [Op.exec, hok rfl, ↓reduceIte] at hr
    cases hr
    cases th with
    | session sock key pc =>
      cases pc with
      | buy d q | sell n ds q => cases h
      | rumor k q =>
        cases q <;> cases hth
        exact .pay sock key k _ _ off rfl rfl rfl hfiles hidle hidle'
      | fakeRich q =>
        cases q <;> cases hth
        exact .assign key _ off _ rfl rfl rfl (.inr rfl) rfl rfl hfiles hidle hidle'
      | payoff q =>
        cases q with
        | update e rec off =>
          cases hth
          exact .assign key rec off { rec with money := initialMoney } rfl rfl rfl (.inl rfl) rfl rfl
            hfiles hidle hidle'
        | _ => cases hth
      | _ => cases hth
    | _ => cases hth
  | indeterminate hth =>
    rw [hA.determinate] at hth
    cases hth
  | burn off =>
    by_cases hc : c.ok = true
    · simp only [Op.exec, hc, ↓reduceIte] at hr
      cases hr
      exact .ruin off hact (by simp [Thread.deal, hc]) rfl hfiles hidle hidle'
    · simp only [Op.exec, hc] at hr
      cases hr
      refine .common ?_ rfl hfiles (hidle.same hidle')
      simp only [Thread.deal, hc]
      rintro _ ⟨⟩
  | reset => cases ho

/-- **What a step does** to the files, to the database and to the hands of its thread, beside the
deal it makes. -/
theorem deal_step (hreset : th.resets = false) (hW : s.files.Housed) (hA : Account s th)
    (hroll : th.rollback = none) (hplain : ∀ key ∈ a.op.owners, key.Plain)
    (hok : a.op.rewrites = true → c.ok = true) (hdb : th.trustsDb = true → c.ok = true)
    (hfits : th.CreditFits) (hworks : a.op.Works s c) (ha : th.action = some a) {r : a.op.Ret}
    (hr : a.op.exec s c = some (s', r)) (hroll' : (a.next r).rollback = none) :
    DealStep s th (th.deal s c a.op) s' (a.next r) := by
  rcases hdealing : th.dealing with _ | _
  · have hidle := idle_of_not_dealing hdealing
    have hidle' := idle_after hdealing ha ⟨r, hr, rfl⟩
    have htrading := trading_of_not_dealing hdealing hreset ha
    by_cases hu : a.op.store = some .users
    · exact users_deal hdealing hA hok hdb htrading hu ha hr hidle'
    · by_cases hf : a.op.store = some .files
      · exact files_deal hu hf htrading hW hplain hworks hr hidle hidle'
      · exact .quiet hr hu hf (common_of_store hu hf htrading) (hidle.same hidle')
  cases th with
  | session sock key pc =>
    cases ha
    cases pc with
    | buy d q =>
      obtain ⟨pc', hpc'⟩ : ∃ pc', Command.resume (.buy d) true ((handleBuy sock key d q).next r) =
          .cont pc' := by
        cases (handleBuy sock key d q).next r <;> exact ⟨_, rfl⟩
      have hroll' : (Thread.session sock key pc').rollback = none := by
        simpa only [Action.map, clientLoop, hpc'] using hroll'
      have hstep := buy_deal hr hok hpc' (fun slot hq => by subst hq; cases hroll) fun slot hq => by
        subst hq
        cases hroll'
      simp only [Action.map, clientLoop, hpc'] at hstep ⊢
      exact hstep
    | sell n ds q =>
      obtain ⟨pc', hpc'⟩ : ∃ pc', Command.resume (.sell n ds) false
          ((handleSell sock key n ds q).next r) = .cont pc' := by
        cases (handleSell sock key n ds q).next r <;> exact ⟨_, rfl⟩
      obtain ⟨x, hx, hkey⟩ := hA.known key rfl
      have hfound : (userdbFind s.users key).isSome = true := by
        rw [Option.isSome_iff_ne_none]
        exact fun hnone => userdbFind_eq_none.1 hnone x hx hkey
      have hdet : ∀ npc sold rec, q ≠ .creditIndeterminate npc sold rec := by
        rintro npc sold rec rfl
        have hno := hA.determinate
        cases hno
      have hstep := sell_deal hr hworks hok hdb hfits hfound hdet hpc'
      simp only [Action.map, clientLoop, hpc'] at hstep ⊢
      exact hstep
    | _ => cases hdealing
  | _ => cases hdealing

end UnderFlow
