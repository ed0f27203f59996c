import UnderFlow.Server.Burned
import UnderFlow.Server.Balances
import UnderFlow.Server.Streams

/-!
# Ledgers

What a player is told about money: the price of every document acknowledged by `PKT_RES_BUY_OK`,
the bounty of every `PKT_RES_SELL_OK`, the fee of every rumor that was answered, and the balances
assigned directly.  The stored balance is this ledger, but for the command under way.

* `ledger` : the balance according to a record of the replies.
* `BooksStep` : what a step does to the database, to the ledger and to the command under way.
* `books_step` : the stored balance is the ledger and what is not settled yet.
* `ledgerKept_of_guard` : **no update of a balance is lost** while every key has one session and one
  record, the calls of the database succeed, and no record is burned or reset.
-/

namespace UnderFlow

variable {s s' : Shared} {c : Choice} {th th' : Thread} {a : Action Thread} {key k : Key}
  {sock off : ℕ} {rec : UserRecord} {m x : ℤ}

/-! ### The record -/

/-- The entries of the ledger. -/
inductive LedgerEvent where
  /-- A balance is assigned: a new account, an escape, or a full purse. -/
  | assigned (key : Key) (money : ℤ)
  /-- `PKT_RES_BUY_OK` for a document of this price. -/
  | bought (key : Key) (price : ℤ)
  /-- `PKT_RES_SELL_OK` with this bounty. -/
  | sold (key : Key) (bounty : ℤ)
  /-- The answer to an accepted rumor. -/
  | rumored (key : Key)

/-- The balance of a key after an event. -/
def LedgerEvent.apply (k : Key) (b : Option ℤ) : LedgerEvent → Option ℤ
  | assigned key money => if key = k then some money else b
  | bought key price => if key = k then b.map (· + -price) else b
  | sold key bounty => if key = k then b.map (· + bounty) else b
  | rumored key => if key = k then b.map (· + -rumorFee) else b

/-- The balance of a key according to the record, from what the data directory says of it. -/
def ledger (users : UserDb) (hist : List LedgerEvent) (k : Key) : Option ℤ :=
  hist.foldl (LedgerEvent.apply k) (balanceOf users k)

/-- What the next action of a command writes into the ledger. -/
def Command.ledgerEvents (key : Key) : Command → List LedgerEvent
  | .buy _ (.reply slot _) => [.bought key slot.basePrice]
  | .sell _ _ (.reply npc _ _ _) => [.sold key npc.bounty]
  | .rumor _ (.inventory (.send _ _)) => [.rumored key]
  | .fakeRich (.update rec _) => [.assigned key rec.money]
  | .payoff (.update _ _ _) => [.assigned key initialMoney]
  | _ => []

/-- What the next action of a thread writes into the ledger. -/
def Thread.ledgerEvents : Thread → List LedgerEvent
  | .login _ (.append _ rec) => [.assigned rec.key rec.money]
  | .session _ key pc => pc.ledgerEvents key
  | _ => []

/-- What a step enters into the ledger. -/
def ledgerEventsAt (p : Server) (l : Label) : List LedgerEvent :=
  (threadAt p l).elim [] Thread.ledgerEvents

/-- The server with a ledger. -/
def ledgerServer : System (Server × List LedgerEvent) Label := server.withHistory ledgerEventsAt

/-! ### Balances and replies -/

/-- The balance a reply carries. -/
def Op.quoted : Op → Option ℤ
  | .packetSend _ (.buyOk _ money _ _) | .packetSend _ (.sellOk _ money) => some money
  | _ => none

/-- The stored balances are the ledger where no command is in flight, and every reply carries the
stored balance of the player it is sent to. -/
structure LedgerKept (users : UserDb) (p : Server) (hist : List LedgerEvent) : Prop where
  settled : ∀ key, (∀ u ∈ p.threads, ∀ sock pc, u = .session sock key pc → pc = .recv) →
    balanceOf p.shared.users key = ledger users hist key
  replies : ∀ u ∈ p.threads, ∀ a, u.action = some a → ∀ money, a.op.quoted = some money →
    ∃ sock key pc, u = .session sock key pc ∧ balanceOf p.shared.users key = some money

/-- The key of a session. -/
def Thread.player : Thread → Option Key
  | .session _ key _ => some key
  | _ => none

/-- The session waits for its next command. -/
def Thread.waits : Thread → Bool
  | .session _ _ .recv => true
  | _ => false

/-- Every key has one session and one record at most. -/
def Single (p : Server) : Prop :=
  (p.threads.filterMap Thread.player).Nodup ∧ (p.shared.users.map (·.key)).Nodup

/-- The operation rewrites a record. -/
def Op.rewrites : Op → Bool
  | .userdbUpdateAt _ _ => true
  | _ => false

/-- The operation burns a record, or resets all of them. -/
def Op.wipes : Op → Bool
  | .userdbBurnAt _ | .userdbResetRound _ => true
  | _ => false

/-- Every key has one session and one record, the calls of the database succeed, and no record is
burned or reset. -/
structure LedgerScope (p : Server) (l : Label) : Prop where
  single : Single p
  db : DbOk p l
  updates : ∀ o ∈ opAt p l, o.rewrites = true → (choiceOf l).ok = true
  calm : ∀ o ∈ opAt p l, o.wipes = false

/-- Besides, no sale takes a balance out of the range of an `int32_t`. -/
structure LedgerGuard (p : Server) (l : Label) : Prop where
  scope : LedgerScope p l
  range : InRange p l

instance (p : Server) : Decidable (Single p) := inferInstanceAs (Decidable (_ ∧ _))

instance (p : Server) (l : Label) : Decidable (LedgerScope p l) :=
  decidable_of_iff (Single p ∧ DbOk p l ∧ (∀ o ∈ opAt p l, o.rewrites = true →
    (choiceOf l).ok = true) ∧
    ∀ o ∈ opAt p l, o.wipes = false)
    ⟨fun h => ⟨h.1, h.2.1, h.2.2.1, h.2.2.2⟩, fun h => ⟨h.single, h.db, h.updates, h.calm⟩⟩

instance (p : Server) (l : Label) : Decidable (LedgerGuard p l) :=
  decidable_of_iff (_ ∧ _) ⟨fun h => ⟨h.1, h.2⟩, fun h => ⟨h.scope, h.range⟩⟩

/-! ### The command under way -/

/-- The stored balance, as a command knows it. -/
def Command.quotes : Command → Option ℤ
  | .buy _ (.take rec _) | .buy _ (.stat _ rec _) | .buy _ (.move _ rec _)
  | .buy _ (.charge _ rec _) | .buy _ (.reply _ rec) => some rec.money
  | .sell _ _ (.credit _ _ rec _) | .sell _ _ (.reply _ _ rec _) => some rec.money
  | .rumor _ (.update _ rec _) => some rec.money
  | _ => none

/-- The stored balance, as a thread knows it. -/
def Thread.quotes : Thread → Option ℤ
  | .session _ _ pc => pc.quotes
  | _ => none

/-- What a command has written into the database and not yet into the ledger. -/
def Command.unsettled : Command → ℤ
  | .buy _ (.reply slot _) => -slot.basePrice
  | .sell _ _ (.reply npc _ _ _) => npc.bounty
  | .rumor _ (.commit _) | .rumor _ .glitch | .rumor _ (.inventory _) => -rumorFee
  | _ => 0

/-- What the command of a key has not settled yet. -/
def Thread.unsettled (k : Key) : Thread → ℤ
  | .session _ key pc => if key = k then pc.unsettled else 0
  | _ => 0

/-- The command has made its update, and its reply is due. -/
def Command.due : Command → Bool
  | .buy _ (.reply _ _) | .sell _ _ (.reply _ _ _ _) => true
  | .rumor _ (.commit _) | .rumor _ .glitch | .rumor _ (.inventory _) => true
  | _ => false

/-- The command is between its update and its reply. -/
def Command.moves : Command → Bool
  | .buy _ (.charge _ _ _) | .sell _ _ (.credit _ _ _ _) | .sell _ _ (.creditIndeterminate _ _ _)
  | .rumor _ (.update _ _ _) => true
  | pc => pc.due

/-- The step of the thread changes a balance. -/
def Thread.moves : Thread → Bool
  | .session _ _ pc => pc.moves
  | _ => false

/-- **What a step does** to the database, to the ledger and to the command under way. -/
inductive BooksStep (s : Shared) (th : Thread) (s' : Shared) (th' : Thread) : Prop
  | quiet (husers : s'.users = s.users) (hev : th.ledgerEvents = [])
      (howed : ∀ k, th'.unsettled k = th.unsettled k)
      (hquotes : ∀ m, th'.quotes = some m → (th.quotes = some m ∧ th'.player = th.player) ∨
        ∃ key rec off, th'.player = some key ∧ userdbFind s.users key = some (rec, off) ∧
          rec.money = m)
  | create (sock : ℕ) (key : Key) (rec : UserRecord) (hth : th = .login sock (.append key rec))
      (husers : s'.users = s.users ++ [rec]) (howed : ∀ k, th'.unsettled k = 0)
      (hquotes : th'.quotes = none)
  | assign (key : Key) (rec : UserRecord) (off : ℕ) (rec' : UserRecord)
      (hplayer : th.player = some key) (hcopy : th.copy = some (rec, off))
      (hkey : rec'.key = rec.key) (husers : s'.users = s.users.set off rec')
      (hev : th.ledgerEvents = [.assigned key rec'.money])
      (howed : ∀ k, th.unsettled k = 0 ∧ th'.unsettled k = 0) (hquotes : th'.quotes = none)
  | post (key : Key) (rec : UserRecord) (off : ℕ) (x : ℤ) (hplayer : th.player = some key)
      (hplayer' : th'.player = some key) (hcopy : th.copy = some (rec, off))
      (hquote : th.quotes = some rec.money)
      (husers : s'.users = s.users.set off { rec with money := rec.money + x })
      (hev : th.ledgerEvents = [])
      (howed : ∀ k, th.unsettled k = 0 ∧ th'.unsettled k = if key = k then x else 0)
      (hquotes : ∀ m, th'.quotes = some m → m = rec.money + x)
  | settle (key : Key) (x : ℤ) (e : LedgerEvent) (husers : s'.users = s.users)
      (hev : th.ledgerEvents = [e])
      (heff : ∀ k b, e.apply k b = if key = k then b.map (· + x) else b)
      (howed : ∀ k, (th.unsettled k = if key = k then x else 0) ∧ th'.unsettled k = 0)
      (hquotes : th'.quotes = none)

/-! ### One step -/

/-- A command between its update and its reply. -/
theorem moves_step {pc : Command} {b : Next Command}
    (hdet : (Thread.session sock key pc).indeterminate = false)
    (hfits : (Thread.session sock key pc).CreditFits)
    (hok : (clientLoop sock key pc).op.rewrites = true → c.ok = true) (hm : pc.moves = true)
    (h : (clientLoop sock key pc).Steps s c s' b) : ∃ pc', b = .cont pc' ∧
      BooksStep s (.session sock key pc) s' (.session sock key pc') := by
  cases pc with
  | buy d q =>
    cases q with
    | charge slot rec off =>
      obtain ⟨r, hr, rfl⟩ := h
      simp only [clientLoop, handleBuy, Action.map, Op.exec, hok rfl, ↓reduceIte] at hr
      cases hr
      refine ⟨_, rfl, .post key rec off (-slot.basePrice) rfl rfl rfl rfl ?_ rfl
        (fun k => ⟨?_, rfl⟩)
        fun m hm => ?_⟩
      · rfl
      · simp [Thread.unsettled, Command.unsettled]
      · cases hm
        rfl
    | reply slot rec =>
      obtain ⟨r, hr, rfl⟩ := h
      cases hr
      refine ⟨_, rfl, .settle key (-slot.basePrice) (.bought key slot.basePrice) rfl rfl
        (fun k b => rfl) (fun k => ⟨rfl, ?_⟩) rfl⟩
      simp [Thread.unsettled, Command.unsettled]
    | _ => cases hm
  | sell n ds q =>
    cases q with
    | credit npc sold rec off =>
      obtain ⟨r, hr, rfl⟩ := h
      -- the sum is stored as it is
      have hsum : wrapInt32 (rec.money + npc.bounty) = rec.money + npc.bounty := wrapInt32_eq hfits
      simp only [clientLoop, handleSell, Action.map, Op.exec, hok rfl, hsum, ↓reduceIte] at hr
      cases hr
      refine ⟨_, rfl, .post key rec off npc.bounty rfl rfl rfl rfl rfl rfl (fun k => ⟨?_, rfl⟩)
        fun m hm => ?_⟩
      · simp [Thread.unsettled, Command.unsettled]
      · cases hm
        exact hsum
    | creditIndeterminate npc sold rec => cases hdet
    | reply npc sold rec old =>
      obtain ⟨r, hr, rfl⟩ := h
      cases hr
      refine ⟨_, rfl, .settle key npc.bounty (.sold key npc.bounty) rfl rfl (fun k b => rfl)
        (fun k => ⟨rfl, ?_⟩) rfl⟩
      simp [Thread.unsettled, Command.unsettled]
    | _ => cases hm
  | rumor target q =>
    cases q with
    | update now rec off =>
      obtain ⟨r, hr, rfl⟩ := h
      simp only [clientLoop, handleRumor, Action.map, Op.exec, hok rfl, ↓reduceIte] at hr
      cases hr
      refine ⟨_, rfl, .post key rec off (-rumorFee) rfl rfl rfl rfl rfl rfl (fun k => ⟨?_, rfl⟩)
        (by rintro _ ⟨⟩)⟩
      simp [Thread.unsettled, Command.unsettled]
    | commit now | glitch =>
      have husers : s'.users = s.users :=
        h.frame.users (by simp [clientLoop, Action.map, handleRumor])
      obtain ⟨r, -, rfl⟩ := h
      exact ⟨_, rfl, .quiet husers rfl (fun k => rfl) (by rintro _ ⟨⟩)⟩
    | inventory q =>
      have husers := h.users_eq (handleInventory_within sock key q) (by simp)
      obtain ⟨n, hn, rfl⟩ := Action.steps_map.1 h
      obtain ⟨n, hinv, rfl⟩ := Action.steps_map.1 hn
      obtain ⟨q', rfl, hsend⟩ | ⟨rfl, items, money, rfl⟩ := handleInventory_next hinv
      · refine ⟨_, rfl, .quiet husers ?_ (fun k => rfl) (by rintro _ ⟨⟩)⟩
        cases q with
        | send items money => exact absurd rfl (hsend items money)
        | _ => rfl
      · refine ⟨_, rfl, .settle key (-rumorFee) (.rumored key) husers rfl (fun k b => rfl)
          (fun k => ⟨rfl, ?_⟩) rfl⟩
        simp [Thread.unsettled, Command.unsettled]
    | _ => cases hm
  | _ => cases hm

theorem unsettled_of_not_due {pc : Command} (h : pc.due = false) : pc.unsettled = 0 := by
  cases pc with
  | buy d q | sell n ds q | rumor target q => cases q <;> first | rfl | cases h
  | _ => rfl

/-- A command whose reply is due was between its update and its reply before. -/
theorem due_origin {pc pc' : Command} (h : (clientLoop sock key pc).Steps s c s' (.cont pc'))
    (hu : pc'.due = true) : pc.moves = true := by
  have horigin := session_origin h
  cases pc' with
  | buy d q' =>
    cases q' with
    | reply slot rec =>
      obtain ⟨he, -⟩ | ⟨q, rfl, hq⟩ := horigin
      · cases he
      · cases q with
        -- the charge is the one point before the reply
        | charge slot rec off => rfl
        | find | count slot | lookup slot | take rec off =>
          obtain ⟨r, -, hn⟩ := hq
          simp only [handleBuy] at hn
          split at hn <;> (try split_ifs at hn) <;> cases hn
        | stat slot rec off | move slot rec off =>
          obtain ⟨r, -, hn⟩ := hq
          simp only [handleBuy] at hn
          split_ifs at hn <;> cases hn
        | _ =>
          obtain ⟨r, -, hn⟩ := hq
          cases hn
    | _ => cases hu
  | sell n ds q' =>
    cases q' with
    | reply npc sold rec old =>
      obtain ⟨he, -⟩ | ⟨q, rfl, hq⟩ := horigin
      · cases he
      · cases q with
        | credit npc sold rec off => rfl
        | creditIndeterminate npc sold rec => rfl
        | findNpc | frozen npc df todo u =>
          obtain ⟨r, -, hn⟩ := hq
          simp only [handleSell, Sell.check] at hn
          split at hn
          · cases hn
          · split at hn <;> (try split_ifs at hn) <;> cases hn
        | has npc d todo u | read npc d todo u =>
          obtain ⟨r, -, hn⟩ := hq
          simp only [handleSell] at hn
          split at hn <;> cases hn
        | take =>
          obtain ⟨r, -, hn⟩ := hq
          cases ds <;> simp only [handleSell, Sell.disposeNext] at hn <;> split at hn <;> cases hn
        | dispose npc d todo sold =>
          obtain ⟨r, -, hn⟩ := hq
          cases todo <;> cases hn
        | lookup npc sold =>
          obtain ⟨r, -, hn⟩ := hq
          simp only [handleSell] at hn
          split at hn <;> cases hn
        | _ =>
          obtain ⟨r, -, hn⟩ := hq
          cases hn
    | _ => cases hu
  | rumor target q' =>
    cases q' with
    | commit now | glitch | inventory q' =>
      obtain ⟨he, -⟩ | ⟨q, rfl, hq⟩ := horigin
      · cases he
      · cases q with
        | enter | lookup now =>
          obtain ⟨r, -, hn⟩ := hq
          simp only [handleRumor] at hn
          split at hn <;> (try split_ifs at hn) <;> cases hn
        | leave code reason =>
          obtain ⟨r, -, hn⟩ := hq
          cases hn
        | _ => rfl
    | _ => cases hu
  | _ => cases hu

/-- The balance a command knows: it knew it before, it has just read it, or it has just written
it. -/
theorem quotes_origin {pc pc' : Command} (h : (clientLoop sock key pc).Steps s c s' (.cont pc'))
    (hm : pc.moves = false) (hq : pc'.quotes = some m) : pc.quotes = some m ∨
      ∃ rec off, userdbFind s.users key = some (rec, off) ∧ rec.money = m := by
  have horigin := session_origin h
  cases pc' with
  | buy d q' =>
    obtain ⟨rfl, -⟩ | ⟨q, rfl, hs⟩ := horigin
    · cases hq
    · cases q with
      | find | count slot =>
        obtain ⟨r, -, hn⟩ := hs
        simp only [handleBuy] at hn
        split at hn <;> (try split_ifs at hn) <;> cases hn <;> cases hq
      | lookup slot =>
        obtain ⟨r, hr, hn⟩ := hs
        obtain ⟨-, ⟨-, p, hp, rfl⟩ | ⟨-, rfl⟩⟩ := exec_find hr
        · simp only [handleBuy] at hn
          split_ifs at hn
          cases hn
          cases hq
          exact .inr ⟨p.1, p.2, hp, rfl⟩
        · cases hn
      | take rec off =>
        obtain ⟨r, -, hn⟩ := hs
        simp only [handleBuy] at hn
        split at hn <;> cases hn
        exact .inl hq
      | stat slot rec off | move slot rec off =>
        obtain ⟨r, -, hn⟩ := hs
        simp only [handleBuy] at hn
        split_ifs at hn <;> cases hn
        · exact .inl hq
        · cases hq
      | charge slot rec off | reply slot rec => cases hm
      | _ =>
        obtain ⟨r, -, hn⟩ := hs
        cases hn
  | sell n ds q' =>
    obtain ⟨rfl, -⟩ | ⟨q, rfl, hs⟩ := horigin
    · cases hq
    · cases q' with
      | credit npc sold rec off =>
        cases hq
        obtain ⟨npc, sold, rfl, hf⟩ := handleSell_copy hs rfl
        exact .inr ⟨rec, off, hf, rfl⟩
      | reply npc sold rec old =>
        rw [due_origin h rfl] at hm
        cases hm
      | _ => cases hq
  | rumor target q' =>
    obtain ⟨rfl, -⟩ | ⟨q, rfl, hs⟩ := horigin
    · cases hq
    · cases q' with
      | update now rec off =>
        cases hq
        obtain ⟨now, rfl, hf, -⟩ := handleRumor_copy hs rfl
        exact .inr ⟨rec, off, hf, rfl⟩
      | _ => cases hq
  | _ => cases hq

theorem due_of_not_moves {pc : Command} (h : pc.moves = false) : pc.due = false := by
  cases pc with
  | buy d q | sell n ds q | rumor target q => cases q <;> first | rfl | cases h
  | _ => rfl

theorem unsettled_of_not_moves (h : th.moves = false) (k : Key) : th.unsettled k = 0 := by
  cases th with
  | session sock key pc =>
    simp [Thread.unsettled, unsettled_of_not_due (due_of_not_moves h)]
  | _ => rfl

/-- A thread whose reply is not due and which writes nothing back. -/
theorem quiet_step (hA : Account s th) (hcalm : a.op.wipes = false) (ha : th.action = some a)
    (h : a.Steps s c s' th') (hev : th.ledgerEvents = []) (hmoves : th.moves = false)
    (hstores : th.stores = none) : BooksStep s th s' th' := by
  have husers : s'.users = s.users := by
    by_cases hst : a.op.store = some .users
    · have hop := users_op ha hst
      generalize a.op = o at hop hcalm
      cases hop with
      | append sock key rec hth =>
        rw [hth] at hev
        cases hev
      | update off rec hth =>
        rw [hstores] at hth
        cases hth
      | indeterminate hth =>
        rw [hA.determinate] at hth
        cases hth
      | burn off => cases hcalm
      | reset => cases hcalm
    · exact h.frame.users hst
  have ho := thread_origin ha h
  refine .quiet husers hev (fun k => ?_) fun m hm => ?_
  · rw [unsettled_of_not_moves hmoves]
    cases th' with
    | session sock key pc' =>
      have hdue : pc'.due = false := by
        obtain ⟨pc, rfl, hs⟩ | ⟨rfl, -⟩ := ho
        · by_contra hdue
          rw [Bool.not_eq_false] at hdue
          have hpc : pc.moves = false := hmoves
          rw [due_origin hs hdue] at hpc
          cases hpc
        · rfl
      simp [Thread.unsettled, unsettled_of_not_due hdue]
    | _ => rfl
  · cases th' with
    | session sock key pc' =>
      obtain ⟨pc, rfl, hs⟩ | ⟨rfl, -⟩ := ho
      · obtain hq | ⟨rec, off, hf, hrec⟩ := quotes_origin hs hmoves hm
        · exact .inl ⟨hq, rfl⟩
        · exact .inr ⟨key, rec, off, rfl, hf, hrec⟩
      · cases hm
    | _ => cases hm

/-- **The books after a step.** -/
theorem books_thread (hA : Account s th) (hfits : th.CreditFits)
    (hdb : th.trustsDb = true → c.ok = true) (hok : a.op.rewrites = true → c.ok = true)
    (hcalm : a.op.wipes = false) (ha : th.action = some a) (h : a.Steps s c s' th') :
    BooksStep s th s' th' := by
  by_cases hmoves : th.moves = true
  · cases th with
    | session sock key pc =>
      cases ha
      obtain ⟨b, hb, rfl⟩ := Action.steps_map.1 h
      obtain ⟨pc', rfl, hstep⟩ := moves_step hA.determinate hfits hok hmoves hb
      exact hstep
    | _ => cases hmoves
  · rw [Bool.not_eq_true] at hmoves
    cases th with
    | login sock pc =>
      cases pc with
      | append key rec =>
        cases ha
        obtain ⟨r, hr, rfl⟩ := h
        simp only [clientLogin, Action.map, Op.exec, hdb rfl, ↓reduceIte] at hr
        cases hr
        exact .create sock key rec rfl rfl (fun k => rfl) rfl
      | _ => exact quiet_step hA hcalm ha h rfl rfl rfl
    | session sock key pc =>
      cases pc with
      | fakeRich q =>
        cases q with
        | update rec off =>
          cases ha
          obtain ⟨r, hr, rfl⟩ := h
          simp only [clientLoop, handleFakeRich, Action.map, Op.exec, hok rfl, ↓reduceIte] at hr
          cases hr
          refine .assign key rec off rec rfl rfl rfl rfl rfl (fun k => ?_) rfl
          simp [Thread.unsettled, Command.unsettled, Action.map, clientLoop, handleFakeRich,
            Command.resume]
        | _ => exact quiet_step hA hcalm ha h rfl rfl rfl
      | payoff q =>
        cases q with
        | update e rec off =>
          cases ha
          obtain ⟨r, hr, rfl⟩ := h
          simp only [clientLoop, handlePayoff, Action.map, Op.exec, hok rfl, ↓reduceIte] at hr
          cases hr
          refine .assign key rec off { rec with money := initialMoney } rfl rfl rfl rfl rfl
            (fun k => ?_) rfl
          simp [Thread.unsettled, Command.unsettled, Action.map, clientLoop, handlePayoff,
            Command.resume]
        | _ => exact quiet_step hA hcalm ha h rfl rfl rfl
      | buy d q => cases q <;> first | exact quiet_step hA hcalm ha h rfl rfl rfl | cases hmoves
      | sell n ds q => cases q <;> first | exact quiet_step hA hcalm ha h rfl rfl rfl | cases hmoves
      | rumor target q =>
        cases q <;> first | exact quiet_step hA hcalm ha h rfl rfl rfl | cases hmoves
      | _ => exact quiet_step hA hcalm ha h rfl rfl rfl
    | _ => exact quiet_step hA hcalm ha h rfl rfl rfl

/-! ### The invariant -/

/-- What all commands of a key have not settled yet. -/
def owed (threads : List Thread) (k : Key) : ℤ := (threads.map (Thread.unsettled k)).sum

/-- What a thread knows of its record is right: where it is, and its balance. -/
structure Knows (s : Shared) (th : Thread) : Prop where
  copy : ∀ rec off, th.copy = some (rec, off) →
    th.player = some rec.key ∧ ∃ r, userdbFind s.users rec.key = some (r, off)
  quotes : ∀ m, th.quotes = some m → ∃ key, th.player = some key ∧ balanceOf s.users key = some m

/-- The stored balance is the ledger and what is not settled yet. -/
structure Books (users : UserDb) (p : Server) (hist : List LedgerEvent) : Prop where
  accounts : Accounts p
  knows : ∀ (t : ℕ) (th : Thread), p.threads[t]? = some th → Knows p.shared th
  balance : ∀ k, balanceOf p.shared.users k = (ledger users hist k).map (· + owed p.threads k)

section

variable {users : UserDb} {hist : List LedgerEvent} {p p' : Server} {t : ℕ} {l : Label}

theorem ledger_append (ev : List LedgerEvent) :
    ledger users (hist ++ ev) k = ev.foldl (LedgerEvent.apply k) (ledger users hist k) := by
  rw [ledger, List.foldl_append, ledger]

/-- A thread that writes the record of another key leaves the balance as it is. -/
theorem balance_of_other (hstep : BooksStep s th s' th') (hA : Account s th) (hK : Knows s th)
    (hk : th.player ≠ some k) (hb : balanceOf s.users k = some m) :
    balanceOf s'.users k = some m := by
  have hset : ∀ rec off rec', th.copy = some (rec, off) → rec'.key = rec.key →
      balanceOf (s.users.set off rec') k = some m := by
    intro rec off rec' hcopy hkey
    have hne : rec'.key ≠ k := by
      rintro rfl
      exact hk (hkey ▸ (hK.copy rec off hcopy).1)
    rw [balanceOf_set_of_ne (hkey ▸ hA.copy rec off hcopy) hne, hb]
  cases hstep with
  | quiet husers _ _ _ => rw [husers, hb]
  | create _ _ rec _ husers _ _ => rw [husers, balanceOf_append, hb, Option.some_or]
  | assign _ rec off rec' _ hcopy hkey husers _ _ _ =>
    rw [husers]
    exact hset rec off rec' hcopy hkey
  | post _ rec off x _ _ hcopy _ husers _ _ _ =>
    rw [husers]
    exact hset rec off _ hcopy rfl
  | settle _ _ _ husers _ _ _ _ => rw [husers, hb]

/-- The sessions of two threads have different keys. -/
theorem player_ne (hS : Single p) (hth : p.threads[t]? = some th) {j : ℕ} {u : Thread} (hj : j ≠ t)
    (hu : p.threads[j]? = some u) (hk : u.player = some k) : th.player ≠ some k :=
  fun h => hj (Pool.InjOn.of_nodup hS.1 j t u th k hu hth hk h)

theorem player_of_unsettled (h : th.unsettled k ≠ 0) : th.player = some k := by
  cases th with
  | session sock key pc =>
    simp only [Thread.unsettled] at h
    split_ifs at h with hkey
    · rw [← hkey]
      rfl
    · exact absurd rfl h
  | _ => exact absurd rfl h

/-- What a key owes is what its thread has not settled. -/
theorem owed_eq (hS : Single p) (hth : p.threads[t]? = some th) (hk : th.player = some k) :
    owed p.threads k = th.unsettled k := by
  refine Pool.sum_eq_of_alone hth fun j u hj hu => ?_
  by_contra hne
  exact player_ne hS hth hj hu (player_of_unsettled hne) hk

/-- A key without a record owes nothing. -/
theorem owed_eq_zero (hA : Accounts p) (hk : ∀ r ∈ p.shared.users, r.key ≠ k) :
    owed p.threads k = 0 := by
  refine List.sum_eq_zero fun x hx => ?_
  obtain ⟨u, hu, rfl⟩ := List.mem_map.1 hx
  obtain ⟨j, hj⟩ := List.getElem?_of_mem hu
  by_contra hne
  have hplayer := player_of_unsettled hne
  cases u with
  | session sock key pc =>
    cases hplayer
    obtain ⟨r, hr, hkey⟩ := (hA.thread j _ hj).known k rfl
    exact hk r hr hkey
  | _ => cases hplayer

theorem spawned_plain {o : Op} {r : o.Ret} {u : Thread} (hu : u ∈ o.spawned r) :
    u.copy = none ∧ u.quotes = none ∧ ∀ k, u.unsettled k = 0 := by
  obtain ⟨n, rfl⟩ | ⟨sock, -, rfl⟩ := spawned_start hu
  · cases n <;> exact ⟨rfl, rfl, fun _ => rfl⟩
  · exact ⟨rfl, rfl, fun _ => rfl⟩

/-- The balances after a step. -/
theorem balance_books (hI : Books users p hist) (hS : Single p) (hS' : Single p')
    (hth : p.threads[t]? = some th) (hstep : BooksStep p.shared th p'.shared th')
    (howed : ∀ k, owed p'.threads k = owed p.threads k - th.unsettled k + th'.unsettled k)
    (k : Key) :
    balanceOf p'.shared.users k =
      (ledger users (hist ++ th.ledgerEvents) k).map (· + owed p'.threads k) := by
  have hA := hI.accounts.thread t th hth
  have hK := hI.knows t th hth
  have hb := hI.balance k
  rw [ledger_append]
  cases hstep with
  | quiet husers hev hun _ =>
    rw [hev, husers, hb, howed, hun, sub_add_cancel]
    rfl
  | create sock key rec hth' husers hun _ =>
    subst hth'
    have howed' : owed p'.threads k = owed p.threads k := by
      rw [howed, hun]
      simp [Thread.unsettled]
    rw [husers, balanceOf_append, howed']
    -- only the balance of the new account changes
    by_cases hk : rec.key = k
    · subst hk
      have hnew : ∀ r ∈ p.shared.users, r.key ≠ rec.key := by
        have hnodup := hS'.2
        rw [husers, List.map_append, List.nodup_append] at hnodup
        exact fun r hr => hnodup.2.2 _ (List.mem_map_of_mem hr) _ (by simp)
      rw [balanceOf_eq_none.2 hnew, owed_eq_zero hI.accounts hnew]
      simp [Thread.ledgerEvents, LedgerEvent.apply]
    · simp [hb, Thread.ledgerEvents, LedgerEvent.apply, hk]
  | assign key rec off rec' hplayer hcopy hkey husers hev hun _ =>
    obtain ⟨hrec, r, hf⟩ := hK.copy rec off hcopy
    obtain rfl : key = rec.key := Option.some.inj (hplayer.symm.trans hrec)
    have howed' : owed p'.threads k = owed p.threads k := by
      rw [howed, (hun k).1, (hun k).2, sub_zero, add_zero]
    rw [husers, hev, howed']
    by_cases hk : rec.key = k
    · subst hk
      rw [balanceOf_set hf hkey, owed_eq hS hth hplayer, (hun _).1]
      simp [LedgerEvent.apply]
    · rw [balanceOf_set_of_ne (hkey ▸ hA.copy rec off hcopy) (hkey ▸ hk), hb]
      simp [LedgerEvent.apply, hk]
  | post key rec off x hplayer _ hcopy hquote husers hev hun _ =>
    obtain ⟨hrec, r, hf⟩ := hK.copy rec off hcopy
    obtain rfl : key = rec.key := Option.some.inj (hplayer.symm.trans hrec)
    rw [husers, hev, howed, (hun k).1, (hun k).2, sub_zero, List.foldl_nil]
    by_cases hk : rec.key = k
    · subst hk
      obtain ⟨key, hkey, hquoted⟩ := hK.quotes rec.money hquote
      obtain rfl : key = rec.key := Option.some.inj (hkey.symm.trans hplayer)
      rw [balanceOf_set hf
        (show ({ rec with money := rec.money + x } : UserRecord).key = _ from rfl)]
      rw [hquoted] at hb
      obtain ⟨b, hb, hsum⟩ := Option.map_eq_some_iff.1 hb.symm
      rw [hb, Option.map_some, if_pos rfl, ← add_assoc, hsum]
    · have hkeyAt : keyAt p.shared.users off =
          some ({ rec with money := rec.money + x } : UserRecord).key := hA.copy rec off hcopy
      rw [if_neg hk, add_zero, balanceOf_set_of_ne hkeyAt hk, hb]
  | settle key x e husers hev heff hun _ =>
    rw [husers, hev, hb, howed, (hun k).1, (hun k).2, add_zero, List.foldl_cons, List.foldl_nil,
      heff]
    split_ifs with hk
    · rw [Option.map_map]
      congr 1
      funext b
      simp only [Function.comp_apply]
      omega
    · rw [sub_zero]

/-- A thread with a copy has kept its key. -/
theorem player_of_copy (ha : th.action = some a) (h : a.Steps s c s' th')
    (hc : th'.copy = some (rec, off)) : th'.player = th.player := by
  have ho := thread_origin ha h
  cases th' with
  | session sock key pc' =>
    obtain ⟨pc, rfl, -⟩ | ⟨rfl, -⟩ := ho
    · rfl
    · cases hc
  | _ => cases hc

/-- The copy of a thread is of its own record, at the offset where that is found. -/
def Copied (s : Shared) (th : Thread) : Prop :=
  ∀ rec off, th.copy = some (rec, off) →
    th.player = some rec.key ∧ ∃ r, userdbFind s.users rec.key = some (r, off)

theorem copied_own (hA : Account s th) (hK : Copied s th) (ha : th.action = some a)
    (h : a.Steps s c s' th') : Copied s' th' := by
  intro rec off hc
  have hfound : ∀ {key : Key}, th.player = some key → userdbFind s.users key = some (rec, off) →
      th'.player = some rec.key ∧ ∃ r, userdbFind s'.users rec.key = some (r, off) := by
    intro key hkey hf
    obtain rfl := (userdbFind_mem hf).2
    exact ⟨(player_of_copy ha h hc).trans hkey, find_step hA (users_step ha h) hf⟩
  cases copy_step ha h hc with
  | kept rec₀ hcopy hkey _ _ =>
    obtain ⟨hplayer, r, hf⟩ := hK rec₀ off hcopy
    rw [hkey]
    exact ⟨(player_of_copy ha h hc).trans hplayer, find_step hA (users_step ha h) hf⟩
  | buy sock key d slot hth hf _ => exact hfound (by rw [hth]; rfl) hf
  | sell sock key n ds npc sold hth hf => exact hfound (by rw [hth]; rfl) hf
  | rumor sock key target now hth hf _ => exact hfound (by rw [hth]; rfl) hf
  | fakeRich sock key hth hf => exact hfound (by rw [hth]; rfl) hf
  | payoff sock key hth hf _ => exact hfound (by rw [hth]; rfl) hf

theorem copied_frame (hA : Account s th) (ha : th.action = some a) (h : a.Steps s c s' th')
    {u : Thread} (hu : Copied s u) : Copied s' u := by
  intro rec off hc
  obtain ⟨hplayer, r, hf⟩ := hu rec off hc
  exact ⟨hplayer, find_step hA (users_step ha h) hf⟩

theorem knows_own (hA : Account s th) (hK : Knows s th) (ha : th.action = some a)
    (h : a.Steps s c s' th') (hstep : BooksStep s th s' th') : Knows s' th' where
  copy := copied_own hA hK.copy ha h
  quotes m hm := by
    cases hstep with
    | quiet husers _ _ hquotes =>
      rw [husers]
      obtain ⟨hq, hplayer⟩ | ⟨key, rec, off, hplayer, hf, rfl⟩ := hquotes m hm
      · rw [hplayer]
        exact hK.quotes m hq
      · exact ⟨key, hplayer, by rw [balanceOf, hf, Option.map_some]⟩
    | create _ _ _ _ _ _ hquotes | assign _ _ _ _ _ _ _ _ _ _ hquotes
    | settle _ _ _ _ _ _ _ hquotes =>
      rw [hquotes] at hm
      cases hm
    | post key rec off x hplayer hplayer' hcopy _ husers _ _ hquotes =>
      obtain ⟨hrec, r, hf⟩ := hK.copy rec off hcopy
      obtain rfl : key = rec.key := Option.some.inj (hplayer.symm.trans hrec)
      obtain rfl := hquotes m hm
      refine ⟨rec.key, hplayer', ?_⟩
      rw [husers, balanceOf_set hf (show ({ rec with money := rec.money + x } : UserRecord).key = _
        from rfl)]

theorem knows_frame (hA : Account s th) (hK : Knows s th) (ha : th.action = some a)
    (h : a.Steps s c s' th') (hstep : BooksStep s th s' th') {u : Thread} (hu : Knows s u)
    (hne : ∀ k, u.player = some k → th.player ≠ some k) : Knows s' u where
  copy := copied_frame hA ha h hu.copy
  quotes m hm := by
    obtain ⟨key, hplayer, hb⟩ := hu.quotes m hm
    exact ⟨key, hplayer, balance_of_other hstep hA hK (hne key hplayer) hb⟩

/-- **The books are kept.** -/
theorem books_step (hI : Books users p hist) (hG : LedgerGuard p l) (hS' : Single p')
    (h : server.next p l = some p') : Books users p' (hist ++ ledgerEventsAt p l) := by
  have hAccounts := accounts_step hI.accounts hG.scope.db h
  cases l with
  | env e =>
    obtain rfl := Pool.next_env.1 h
    exact ⟨hAccounts, fun t th hth => ⟨(hI.knows t th hth).copy, (hI.knows t th hth).quotes⟩,
      fun k => by simpa [ledgerEventsAt, threadAt] using hI.balance k⟩
  | run t c =>
    obtain ⟨th, a, r, hth, ha, hr, hthreads⟩ := server_run h
    have hA := hI.accounts.thread t th hth
    have hK := hI.knows t th hth
    have hop : opAt p (.run t c) = some a.op := opAt_run hth ha
    have hs : a.Steps p.shared c p'.shared (a.next r) := ⟨r, hr, rfl⟩
    have hstep := books_thread hA (hG.range th hth) (fun hdb => hG.scope.db th hth hdb)
      (hG.scope.updates a.op hop) (hG.scope.calm a.op hop) ha hs
    refine ⟨hAccounts, fun j u hu => ?_, fun k => ?_⟩
    · rw [hthreads] at hu
      rcases Pool.getElem?_step hu with ⟨hj, hold⟩ | ⟨-, rfl⟩ | hnew
      · exact knows_frame hA hK ha hs hstep (hI.knows j u hold) fun k =>
          player_ne hG.scope.single hth hj hold
      · exact knows_own hA hK ha hs hstep
      · obtain ⟨hcopy, hquotes, -⟩ := spawned_plain hnew
        exact ⟨by simp [hcopy], by simp [hquotes]⟩
    · have hev : ledgerEventsAt p (.run t c) = th.ledgerEvents := by
        simp [ledgerEventsAt, threadAt, hth]
      rw [hev]
      refine balance_books hI hG.scope.single hS' hth hstep (fun k => ?_) k
      rw [owed, hthreads]
      exact Pool.sum_step hth fun u hu => (spawned_plain hu).2.2 k

theorem books_boot (cwd : Dir) (files : Files) (users : UserDb) (clock : ℕ) :
    Books users (boot cwd files users clock) [] where
  accounts := accounts_boot cwd files users clock
  knows t th h := by
    obtain rfl := List.mem_singleton.1 (List.mem_of_getElem? h)
    exact ⟨nofun, nofun⟩
  balance k := by simp [boot, owed, ledger, Thread.unsettled]

end

/-! ### Replies -/

theorem sock_of_quoted {o : Op} (h : o.quoted = some m) : ∃ x, o.sock = some x := by
  cases o with
  | packetSend sock pkt => exact ⟨sock, rfl⟩
  | _ => cases h

theorem quoted_of_within {β : Type} {b : Action β} {l : List Store} (hb : b.Within l none) : b.op.quoted = none := by
  by_contra hne
  obtain ⟨m, hm⟩ := Option.ne_none_iff_exists'.1 hne
  obtain ⟨x, hx⟩ := sock_of_quoted hm
  exact nomatch hb.2 x hx

theorem clientLoop_quoted {pc : Command} (h : (clientLoop sock key pc).op.quoted = some m) :
    pc.quotes = some m := by
  have hno : ∀ {β : Type} {b : Action β} {l : List Store}, b.Within l none → b.op.quoted = some m →
      pc.quotes = some m := by
    intro β b l hb hm
    rw [quoted_of_within hb] at hm
    cases hm
  have hinventory : ∀ q, (handleInventory sock key q).op.quoted = some m →
      pc.quotes = some m := by
    intro q hm
    cases q with
    | list q => exact hno (sandboxList_within _ q) hm
    | _ => cases hm
  cases pc with
  | bankruptcy q => cases q <;> cases h
  | buy d q =>
    cases q with
    | reply slot rec => exact h
    | _ => cases h
  | sell n ds q =>
    cases q with
    | reply npc sold rec old => exact h
    | _ => cases h
  | dispose d q => cases q <;> cases h
  | inventory q => exact hinventory q h
  | rumor target q =>
    cases q with
    | inventory q => exact hinventory q h
    | _ => cases h
  | payoff q =>
    cases q with
    | purge e rec off q => exact hno (purgeDocsIn_within (.user key) q) h
    | roundEnd q => exact hno (fireRoundEndCountdown_within _ q) h
    | _ => cases h
  | minigame code q =>
    cases q with
    | burn serial q => exact hno (burnUserByKey_within _ q) h
    | _ => cases h
  | selfRaid q => cases q <;> cases h
  | leak q => exact hno (firePublicLeak_within q) h
  | fakeRich q =>
    cases q with
    | list rec q => exact hno (sandboxList_within _ q) h
    | _ => cases h
  | endround q => exact hno (fireRoundEndCountdown_within _ q) h
  | _ => cases h

/-- **A reply with a balance** carries the balance its command knows. -/
theorem quotes_of_quoted (ha : th.action = some a) (h : a.op.quoted = some m) :
    th.quotes = some m := by
  obtain ⟨x, hx⟩ := sock_of_quoted h
  have hfd := op_sock ha hx
  cases th with
  | session sock key pc =>
    cases ha
    exact clientLoop_quoted h
  | login sock pc =>
    cases ha
    cases pc <;> cases h
  | disconnect sock pc =>
    cases ha
    cases pc <;> cases h
  | main pc =>
    cases ha
    cases pc with
    | add sock | reject sock => cases h
    | _ => cases hfd
  | _ => cases hfd

theorem Books.ledgerKept {users : UserDb} {p : Server} {hist : List LedgerEvent}
    (hI : Books users p hist) : LedgerKept users p hist where
  settled key hidle := by
    have howed : owed p.threads key = 0 := by
      refine List.sum_eq_zero fun x hx => ?_
      obtain ⟨u, hu, rfl⟩ := List.mem_map.1 hx
      by_contra hne
      have hplayer := player_of_unsettled hne
      cases u with
      | session sock key pc =>
        cases hplayer
        obtain rfl := hidle _ hu sock pc rfl
        exact hne (by simp [Thread.unsettled, Command.unsettled])
      | _ => cases hplayer
    rw [hI.balance key, howed]
    simp
  replies u hu a ha money hmoney := by
    obtain ⟨j, hj⟩ := List.getElem?_of_mem hu
    obtain ⟨key, hplayer, hb⟩ := (hI.knows j u hj).quotes money (quotes_of_quoted ha hmoney)
    cases u with
    | session sock key pc =>
      cases hplayer
      exact ⟨sock, key, pc, rfl, hb⟩
    | _ => cases hplayer

/-! ### Runs -/

/-- **No update of a balance is lost** between different players: the stored balance of a player
without a command in flight is what the replies say, and every reply carries the stored balance. -/
theorem ledgerKept_of_guard {cwd : Dir} {files : Files} {users : UserDb} {clock : ℕ}
    {q : Server × List LedgerEvent}
    (hq : ledgerServer.Reach (fun q l => LedgerGuard q.1 l) (boot cwd files users clock, []) q)
    (hsingle : Single q.1) : LedgerKept users q.1 q.2 := by
  refine Books.ledgerKept ?_
  refine hq.invariant (I := fun q => Single q.1 → Books users q.1 q.2)
    (fun _ => books_boot cwd files users clock) (fun q l q' _ hI hG hn hS' => ?_) hsingle
  obtain ⟨hn, hhist⟩ := System.withHistory_next.1 hn
  rw [hhist]
  exact books_step (hI hG.scope.single) hG hS' hn

/-! ### Scripts -/

/-- Alice buys and sells a document while Bob sends a rumor. -/
def ledgerScript : List Label :=
  startUp ++ connect 5 ++ connect 6 ++ logIn 2 (Key.ofBytes (utf8 "alice")) ++
    logIn 3 (Key.ofBytes (utf8 "bob")) ++ receive 2 (.buy 124) :: steps 2 6 ++
    receive 3 (.rumor (Key.ofBytes (utf8 "alice"))) :: steps 3 2 ++ steps 2 4 ++ steps 3 7 ++
    receive 2 (.sell 102 1 (Vector.replicate _ 124)) :: steps 2 10

/-- A guarded run with a purchase, a sale and a rumor. -/
theorem ledgerKept_alice : ∃ q : Server × List LedgerEvent,
    ledgerServer.Reach (fun q l => LedgerGuard q.1 l) (freshBoot, []) q ∧
    q.1.shared.users.map (·.money) = [1400, 500] ∧ LedgerKept [] q.1 q.2 := by
  obtain ⟨q, hq, hf⟩ := ledgerServer.exists_reach_of_any (fun q l => LedgerGuard q.1 l)
    (freshBoot, []) ledgerScript
    (fun q => decide (q.1.shared.users.map (·.money) = [1400, 500] ∧ Single q.1))
    (by decide +kernel)
  obtain ⟨hmoney, hsingle⟩ := of_decide_eq_true hf
  exact ⟨q, hq, hmoney, ledgerKept_of_guard hq hsingle⟩

/-- A data directory with the record of Alice, who has as much as an `int32_t` holds. -/
def richBoot : Server :=
  boot [] ⟨[masterDir [], usersDir []], fun _ => []⟩
    [{ key := Key.ofBytes (utf8 "alice"), money := 2147483647 }] 1

/-- Alice buys a document for 800 and sells it for 1200. -/
def wrapScript : List Label :=
  startUp ++ connect 5 ++ receive 2 (.login (Key.ofBytes (utf8 "alice"))) :: steps 2 15 ++
    receive 2 (.buy 124) :: steps 2 10 ++
    receive 2 (.sell 102 1 (Vector.replicate _ 124)) :: steps 2 10

/-- Where a sale takes the balance out of the range of an `int32_t`, the stored balance is not the
one of the ledger. -/
theorem not_ledgerKept : ∃ q : Server × List LedgerEvent,
    ledgerServer.Reach (fun q l => LedgerScope q.1 l) (richBoot, []) q ∧ Single q.1 ∧
    ¬ LedgerKept richBoot.shared.users q.1 q.2 := by
  obtain ⟨q, hq, hf⟩ := ledgerServer.exists_reach_of_any (fun q l => LedgerScope q.1 l)
    (richBoot, []) wrapScript
    (fun q => decide (Single q.1) && q.1.threads.all (fun u => u.player.isNone || u.waits) &&
      (balanceOf q.1.shared.users (Key.ofBytes (utf8 "alice")) == some (-2147483249)) &&
      (ledger richBoot.shared.users q.2 (Key.ofBytes (utf8 "alice")) == some 2147484047))
    (by decide +kernel)
  simp only [Bool.and_eq_true, decide_eq_true_eq, List.all_eq_true, beq_iff_eq] at hf
  obtain ⟨⟨⟨hsingle, hrest⟩, hbalance⟩, hledger⟩ := hf
  refine ⟨q, hq, hsingle, fun h => ?_⟩
  have hidle : ∀ u ∈ q.1.threads, ∀ sock pc,
      u = .session sock (Key.ofBytes (utf8 "alice")) pc → pc = .recv := by
    rintro u hu sock pc rfl
    have hwaits := hrest _ hu
    cases pc <;> first | rfl | cases hwaits
  have hkept := h.settled _ hidle
  rw [hbalance, hledger] at hkept
  cases hkept

end UnderFlow
