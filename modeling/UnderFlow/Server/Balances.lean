import UnderFlow.Server.Records
import UnderFlow.Server.Listings
import UnderFlow.Server.Orders

/-!
# Balances

A balance is a number that is not negative, or the marker `-1` of a burned record.  `handle_buy`
tests the balance against the price `market_find` returned and charges the price `market_take`
returns: the two calls look for the same id, but not for the same slot.

* `update_stores` : the record a thread writes back.
* `Spends` : what keeps the balances of a thread from going negative.
* `SpendGuard` : an id is listed at one price, as long as it is listed or being bought.
* `solvent_of_guard` : **balances do not go negative** in guarded runs.
* `not_solvent` : without the guard Alice buys a document for more than she has.
-/

namespace UnderFlow

variable {s s' : Shared} {c : Choice} {th th' : Thread} {a : Action Thread}

/-! ### What is written -/

/-- The update of a record the next action of a command makes. -/
def Command.stores : Command → Option (ℕ × UserRecord)
  | .buy _ (.charge slot rec off) => some (off, { rec with money := rec.money - slot.basePrice })
  | .sell _ _ (.credit npc _ rec off) => 
      some (off, { rec with money := wrapInt32 (rec.money + npc.bounty) })
  | .rumor _ (.update _ rec off) => some (off, { rec with money := rec.money - rumorFee })
  | .fakeRich (.update rec off) => some (off, rec)
  | .payoff (.update _ rec off) => some (off, { rec with money := initialMoney })
  | _ => none

/-- The update of a record the next action of a thread makes. -/
def Thread.stores : Thread → Option (ℕ × UserRecord)
  | .session _ _ pc => pc.stores
  | _ => none

/-- The operations that write the database, with the threads that call them. -/
inductive UsersOp (th : Thread) : Op → Prop
  | append (sock : ℕ) (key : Key) (rec : UserRecord) (hth : th = .login sock (.append key rec)) :
    UsersOp th (.userdbAppend rec)
  | update (off : ℕ) (rec : UserRecord) (hth : th.stores = some (off, rec)) :
    UsersOp th (.userdbUpdateAt off rec)
  | indeterminate (hth : th.indeterminate = true) : UsersOp th .userdbUpdateIndeterminate
  | burn (off : ℕ) : UsersOp th (.userdbBurnAt off)
  | reset : UsersOp th (.userdbResetRound initialMoney)

theorem Action.Within.users_ne {β : Type} {a : Action β} {l : List Store} {fd : Option ℕ}
    (hw : a.Within l fd) (hl : Store.users ∉ l) : a.op.store ≠ some .users := hw.store_ne hl

theorem burnUserByKey_usersOp {key : Key} {pc : Burn}
    (h : (burnUserByKey key pc).op.store = some .users) : UsersOp th (burnUserByKey key pc).op := by
  cases pc with
  | burn off => exact .burn off
  | purge q => exact absurd h ((purgeDocsIn_within (.user key) q).users_ne (by simp))
  | _ => cases h

theorem clientLoop_usersOp {sock : ℕ} {key : Key} {pc : Command}
    (h : (clientLoop sock key pc).op.store = some .users) :
    UsersOp (.session sock key pc) (clientLoop sock key pc).op := by
  cases pc with
  | bankruptcy q =>
    cases q with
    | burn off => exact .burn off
    | _ => cases h
  | buy d q =>
    cases q with
    | charge slot rec off => exact .update off _ rfl
    | _ => cases h
  | sell n ds q =>
    cases q with
    | credit npc sold rec off => exact .update off _ rfl
    | creditIndeterminate npc sold rec => exact .indeterminate rfl
    | _ => cases h
  | rumor k q =>
    cases q with
    | update now rec off => exact .update off _ rfl
    | inventory q => exact absurd h ((handleInventory_within sock key q).users_ne (by simp))
    | _ => cases h
  | payoff q =>
    cases q with
    | update e rec off => exact .update off _ rfl
    | purge e rec off q => exact absurd h ((purgeDocsIn_within (.user key) q).users_ne (by simp))
    | roundEnd q => exact absurd h ((fireRoundEndCountdown_within _ q).users_ne (by simp))
    | _ => cases h
  | minigame code q =>
    cases q with
    | burn serial q => exact burnUserByKey_usersOp h
    | _ => cases h
  | fakeRich q =>
    cases q with
    | update rec off => exact .update off _ rfl
    | list rec q => exact absurd h ((sandboxList_within key q).users_ne (by simp))
    | _ => cases h
  | dispose d q => exact absurd h ((handleDispose_within sock key d q).users_ne (by simp))
  | inventory q => exact absurd h ((handleInventory_within sock key q).users_ne (by simp))
  | selfRaid q => exact absurd h ((fireSelfPoliceRaid_within sock key q).users_ne (by simp))
  | leak q => exact absurd h ((firePublicLeak_within q).users_ne (by simp))
  | endround q => exact absurd h ((fireRoundEndCountdown_within _ q).users_ne (by simp))
  | _ => cases h

theorem triggerRoundReset_usersOp {pc : Reset}
    (h : (triggerRoundReset pc).op.store = some .users) : UsersOp th (triggerRoundReset pc).op := by
  cases pc with
  | records => exact .reset
  | masterPurge q => exact absurd h ((purgeDocsIn_within .master q).users_ne (by simp))
  | userPurge name todo q =>
    exact absurd h ((purgeDocsIn_within (.entry name) q).users_ne (by simp))
  | seed q => exact absurd h ((seedMarketAndNpc_within q).users_ne (by simp))
  | _ => cases h

/-- **The writes of the database.** -/
theorem users_op (ha : th.action = some a) (h : a.op.store = some .users) : UsersOp th a.op := by
  cases th with
  | session sock key pc =>
    cases ha
    exact clientLoop_usersOp h
  | login sock pc =>
    cases ha
    cases pc with
    | append key rec => exact .append sock key rec rfl
    | _ => cases h
  | raidTimeout serial pc =>
    cases ha
    cases pc with
    | burn key todo pc => exact burnUserByKey_usersOp h
    | _ => cases h
  | roundEndTimer pc =>
    cases ha
    cases pc with
    | reset pc => exact triggerRoundReset_usersOp h
    | _ => cases h
  | main pc => cases ha; exact absurd h ((mainThread_within pc).users_ne (by simp))
  | disconnect sock pc =>
    cases ha
    exact absurd h ((clientDisconnect_within sock pc).users_ne (by simp))
  | event v pc => cases ha; exact absurd h ((eventThreadFunc_within v pc).users_ne (by simp))
  | npcSequence pc => cases ha; exact absurd h ((eventDoNpcSequence_within pc).users_ne (by simp))
  | leakRecovery mask dur pc =>
    cases ha
    exact absurd h ((leakRecoveryThread_within mask dur pc).users_ne (by simp))
  | finished => cases ha

/-! ### Affordable prices -/

/-- The balance is not negative, or the record is burned. -/
def UserRecord.Sound (rec : UserRecord) : Prop := 0 ≤ rec.money ∨ rec.money = -1

/-- What a purchase that has not taken its document yet is ready to pay for it. -/
def Buy.budget : Buy → Option ℤ
  | .count slot | .lookup slot => some slot.basePrice
  | .take rec _ => some rec.money
  | _ => none

/-- The document a thread is buying, and what it is ready to pay for it. -/
def Thread.budget : Thread → Option (ℤ × ℤ)
  | .session _ _ (.buy docId pc) => pc.budget.map fun b => (docId, b)
  | _ => none

/-- The price of the document a purchase has taken, and the balance it has tested. -/
def Buy.charges : Buy → Option (ℤ × ℤ)
  | .stat slot rec _ | .move slot rec _ | .charge slot rec _ => some (slot.basePrice, rec.money)
  | _ => none

/-- The amount a thread is going to charge, and the balance it has tested. -/
def Thread.charges : Thread → Option (ℤ × ℤ)
  | .session _ _ (.buy _ pc) => pc.charges
  | .session _ _ (.rumor _ (.update _ rec _)) => some (rumorFee, rec.money)
  | _ => none

/-- The balance a thread is going to assign. -/
def Thread.assigns : Thread → Option ℤ
  | .login _ (.append _ rec) => some rec.money
  | .session _ _ (.fakeRich (.update rec _)) => some rec.money
  | _ => none

/-- What keeps the balances of a thread from going negative. -/
structure Spends (s : Shared) (th : Thread) : Prop where
  copy : ∀ rec off, th.copy = some (rec, off) → rec.Sound
  budget : ∀ d b, th.budget = some (d, b) →
    ∀ slot ∈ s.market.slots, slot.lists d = true → slot.basePrice ≤ b
  charges : ∀ price money, th.charges = some (price, money) → price ≤ money
  assigns : ∀ money, th.assigns = some money → 0 ≤ money

/-- The listings of one id have one price. -/
def OnePrice (slots : List MarketSlot) : Prop :=
  ∀ slot ∈ slots, ∀ slot' ∈ slots, ∀ d, slot.lists d = true → slot'.lists d = true →
    slot'.basePrice = slot.basePrice

/-- Every balance is sound, and every thread spends what it has. -/
abbrev Balanced : Server → Prop := Pool.Inv
  (fun s => (∀ rec ∈ s.users, rec.Sound) ∧ OnePrice s.market.slots) Spends

/-- The document an operation lists, and its price. -/
def Op.offer : Op → Option (ℤ × ℤ)
  | .marketAdd docId _ price _ => some (docId, price)
  | _ => none

/-- The calls of the database that nobody tests succeed, balances are exact integers, and a document
is listed only at the price of the active listings of its id, and at no more than the purchases of
its id under way are ready to pay. -/
structure SpendGuard (p : Server) (l : Label) : Prop where
  db : DbOk p l
  range : InRange p l
  listings : ∀ o ∈ opAt p l, ∀ x ∈ o.offer,
    (∀ slot ∈ p.shared.market.slots, slot.lists x.1 = true → slot.basePrice = x.2) ∧
      ∀ u ∈ p.threads, ∀ b ∈ u.budget, b.1 = x.1 → x.2 ≤ b.2

instance (p : Server) (l : Label) : Decidable (SpendGuard p l) :=
  decidable_of_iff (DbOk p l ∧ InRange p l ∧ ∀ o ∈ opAt p l, ∀ x ∈ o.offer,
    (∀ slot ∈ p.shared.market.slots, slot.lists x.1 = true → slot.basePrice = x.2) ∧
      ∀ u ∈ p.threads, ∀ b ∈ u.budget, b.1 = x.1 → x.2 ≤ b.2)
    ⟨fun h => ⟨h.1, h.2.1, h.2.2⟩, fun h => ⟨h.db, h.range, h.listings⟩⟩

/-! ### Writes are sound -/

/-- What is written back is not negative. -/
theorem stores_nonneg (hS : Spends s th) (hP : th.Pays) (hF : th.CreditFits) {off : ℕ}
    {rec : UserRecord} (h : th.stores = some (off, rec)) : 0 ≤ rec.money := by
  cases th with
  | session sock key pc =>
    cases pc with
    | buy d q =>
      cases q <;> cases h
      exact sub_nonneg.2 (hS.charges _ _ rfl)
    | sell n ds q =>
      cases q <;> cases h
      have hpos := hP _ rfl
      rcases hS.copy _ _ rfl with hm | hm <;> simp only [wrapInt32_eq hF] <;> omega
    | rumor k q =>
      cases q <;> cases h
      exact sub_nonneg.2 (hS.charges _ _ rfl)
    | fakeRich q =>
      cases q <;> cases h
      exact hS.assigns _ rfl
    | payoff q =>
      cases q <;> cases h
      exact (by decide : (0 : ℤ) ≤ initialMoney)
    | _ => cases h
  | _ => cases h

/-- **The balances after a step**: an old one, one that is not negative, or that of a record just
burned. -/
theorem balance_step (hA : Account s th) (hS : Spends s th) (hP : th.Pays) (hF : th.CreditFits)
    (ha : th.action = some a) {r : a.op.Ret} (hr : a.op.exec s c = some (s', r)) {off : ℕ}
    {rec : UserRecord} (h : s'.users[off]? = some rec) : s.users[off]? = some rec ∨ 0 ≤ rec.money ∨
      (a.op = .userdbBurnAt off ∧ rec.money = -1) := by
  by_cases hst : a.op.store = some .users
  · have hop := users_op ha hst
    generalize a.op = o at hop r
    cases hop with
    | append sock key new hth =>
      simp only [Op.exec] at hr
      split_ifs at hr <;> cases hr
      · rw [userdbAppend, List.getElem?_append] at h
        split_ifs at h
        · exact .inl h
        · rw [List.mem_singleton.1 (List.mem_of_getElem? h)]
          exact .inr (.inl (hS.assigns _ (by rw [hth]; rfl)))
      · exact .inl h
    | update off' new hth =>
      rcases exec_updateAt hr with he | he <;> rw [he] at h
      · exact .inl h
      · rw [List.getElem?_set] at h
        split_ifs at h
        · cases h
          exact .inr (.inl (stores_nonneg hS hP hF hth))
        · exact .inl h
    | indeterminate hth =>
      rw [hA.determinate] at hth
      cases hth
    | burn off' =>
      rcases exec_burnAt hr with he | he <;> rw [he] at h
      · exact .inl h
      · rw [userdbBurnAt, List.getElem?_modify] at h
        split_ifs at h with hoff
        · obtain ⟨old, -, rfl⟩ := Option.map_eq_some_iff.1 h
          exact .inr (.inr ⟨by rw [hoff], rfl⟩)
        · exact .inl (by simpa using h)
    | reset =>
      rcases exec_resetRound hr with he | he <;> rw [he] at h
      · exact .inl h
      · rw [userdbResetRound, List.getElem?_map] at h
        obtain ⟨old, hold, rfl⟩ := Option.map_eq_some_iff.1 h
        by_cases hburned : old.money = -1
        · rw [reset_of_burned hburned]
          exact .inl hold
        · rw [UserRecord.reset, if_pos hburned]
          exact .inr (.inl (by decide : (0 : ℤ) ≤ initialMoney))
  · rw [(exec_frame hr).users hst] at h
    exact .inl h

/-! ### The purchase -/

section

variable {sock : ℕ} {key : Key} {d : ℤ} {q q' : Buy}

/-- What a purchase is ready to pay is the price of a listing of its document, or it was ready to
pay no more than that. -/
theorem handleBuy_budget {b : ℤ} (h : (handleBuy sock key d q).Steps s c s' (.cont q'))
    (hb : q'.budget = some b) : s'.market = s.market ∧
      ((∃ b₀ ≤ b, q.budget = some b₀) ∨ ∃ slot, marketFind s.market d = some slot ∧
        slot.basePrice = b) := by
  cases q with
  | find =>
    refine ⟨h.frame.market (by simp [handleBuy]), .inr ?_⟩
    obtain ⟨r, hr, hn⟩ := h
    cases hr
    simp only [handleBuy] at hn
    split at hn
    · cases hn
    · rename_i slot hf
      split_ifs at hn
      cases hn
      cases hb
      exact ⟨slot, hf, rfl⟩
  | count slot =>
    refine ⟨h.frame.market (by simp [handleBuy]), .inl ?_⟩
    obtain ⟨r, -, hn⟩ := h
    simp only [handleBuy] at hn
    split at hn <;> (try split_ifs at hn) <;> cases hn <;> exact ⟨b, le_rfl, hb⟩
  | lookup slot =>
    refine ⟨h.frame.market (by simp [handleBuy]), .inl ?_⟩
    obtain ⟨r, -, hn⟩ := h
    simp only [handleBuy] at hn
    split at hn
    · cases hn
    · split_ifs at hn with hm
      cases hn
      cases hb
      exact ⟨slot.basePrice, not_lt.1 hm, rfl⟩
  | take rec off =>
    obtain ⟨r, -, hn⟩ := h
    simp only [handleBuy] at hn
    split at hn <;> cases hn
    cases hb
  | stat slot rec off | move slot rec off =>
    obtain ⟨r, -, hn⟩ := h
    simp only [handleBuy] at hn
    split_ifs at hn <;> cases hn <;> cases hb
  | _ =>
    obtain ⟨r, -, hn⟩ := h
    cases hn
    try cases hb

/-- The listing a purchase charges is the one it took. -/
theorem handleBuy_charges {price money : ℤ} (h : (handleBuy sock key d q).Steps s c s' (.cont q'))
    (hc : q'.charges = some (price, money)) : q.charges = some (price, money) ∨
      q.budget = some money ∧ ∃ slot ∈ s.market.slots, slot.lists d = true ∧
        slot.basePrice = price := by
  cases q with
  | find | count slot | lookup slot =>
    obtain ⟨r, -, hn⟩ := h
    simp only [handleBuy] at hn
    split at hn <;> (try split_ifs at hn) <;> cases hn <;> cases hc
  | take rec off =>
    obtain ⟨r, hr, hn⟩ := h
    cases hr
    rcases marketTake_cases s.market d with ⟨e, he⟩ | ⟨slot, slots, hu, -, he⟩
    · simp only [handleBuy, he] at hn
      cases e <;> cases hn
    · simp only [handleBuy, he] at hn
      cases hn
      cases hc
      exact .inr ⟨rfl, slot, (mem_of_updateFirst hu).1, (mem_of_updateFirst hu).2, rfl⟩
  | stat slot rec off | move slot rec off =>
    obtain ⟨r, -, hn⟩ := h
    simp only [handleBuy] at hn
    split_ifs at hn <;> cases hn
    · exact .inl hc
    · cases hc
  | _ =>
    obtain ⟨r, -, hn⟩ := h
    cases hn
    try cases hc

end

/-! ### Listings after a step -/

/-- The document a thread lists is offered by its operation. -/
theorem adds_offer {doc : DocFile} (ha : th.action = some a) (h : th.adds = some doc) :
    a.op.offer = some (doc.docId, doc.basePrice) := by
  cases th with
  | main pc =>
    cases pc with
    | seed q => cases q <;> cases h; cases ha; rfl
    | _ => cases h
  | session sock key pc =>
    cases pc with
    | buy d q => cases q <;> cases h; cases ha; rfl
    | _ => cases h
  | event v pc =>
    cases pc with
    | spawn q => cases q <;> cases h; cases ha; rfl
    | _ => cases h
  | roundEndTimer pc =>
    cases pc with
    | reset pc =>
      cases pc with
      | seed q => cases q <;> cases h; cases ha; rfl
      | _ => cases h
    | _ => cases h
  | _ => cases h

/-- A listing after a step has the price of a listing of its id before it, or has just been put
up. -/
theorem listing_step (ha : th.action = some a) (h : a.Steps s c s' th') {d : ℤ} {slot' : MarketSlot}
    (hs : slot' ∈ s'.market.slots) (hd : slot'.lists d = true) :
    (∃ slot ∈ s.market.slots, slot.lists d = true ∧ slot.basePrice = slot'.basePrice) ∨
      a.op.offer = some (d, slot'.basePrice) := by
  obtain ⟨hactive, hid⟩ := Bool.and_eq_true _ _ ▸ hd
  rcases slot_step (market_step ha h) hs with ⟨slot, hslot, hdoc, -, hprice, -, hact⟩ |
    ⟨doc, hadds, hdoc, -, hprice, -⟩ | rfl
  · refine .inl ⟨slot, hslot, ?_, hprice.symm⟩
    rw [MarketSlot.lists, hact hactive, ← hdoc]
    exact hid
  · rw [adds_offer ha hadds, ← hdoc, ← hprice, eq_of_beq hid]
    exact .inr rfl
  · cases hactive

/-! ### The invariant -/

section

variable {p p' : Server} {l : Label} {t : ℕ}

/-- The listings of an id still have one price. -/
theorem onePrice_step (hG : SpendGuard p (.run t c)) (hI : OnePrice p.shared.market.slots)
    (hth : p.threads[t]? = some th) (ha : th.action = some a) (h : a.Steps p.shared c s' th') :
    OnePrice s'.market.slots := by
  intro slot hslot slot' hslot' d hd hd'
  have hoffer := fun x hx => (hG.listings a.op (opAt_run hth ha) x hx).1
  rcases listing_step ha h hslot hd with ⟨old, hold, hlist, hprice⟩ | hnew <;>
    rcases listing_step ha h hslot' hd' with ⟨old', hold', hlist', hprice'⟩ | hnew'
  · rw [← hprice, ← hprice']
    exact hI old hold old' hold' d hlist hlist'
  · rw [← hprice]
    exact (hoffer _ hnew' old hold hlist).symm
  · rw [← hprice']
    exact hoffer _ hnew old' hold' hlist'
  · rw [hnew, Option.some.injEq, Prod.mk.injEq] at hnew'
    exact hnew'.2.symm

/-- What a thread is ready to pay is still enough. -/
theorem budget_frame (hG : SpendGuard p (.run t c)) (hth : p.threads[t]? = some th)
    (ha : th.action = some a) (h : a.Steps p.shared c s' th') {u : Thread} (hu : u ∈ p.threads)
    (hS : Spends p.shared u) {d b : ℤ} (hb : u.budget = some (d, b)) :
    ∀ slot ∈ s'.market.slots, slot.lists d = true → slot.basePrice ≤ b := by
  intro slot hslot hd
  rcases listing_step ha h hslot hd with ⟨old, hold, hlist, hprice⟩ | hnew
  · rw [← hprice]
    exact hS.budget d b hb old hold hlist
  · exact (hG.listings a.op (opAt_run hth ha) _ hnew).2 u hu _ hb rfl

theorem spends_own (hI : Balanced p) (hGoal : 0 ≤ p.shared.round.goalMoney)
    (hth : p.threads[t]? = some th) (ha : th.action = some a) (h : a.Steps p.shared c s' th') :
    Spends s' th' := by
  have hS := hI.thread t th hth
  have ho := thread_origin ha h
  refine ⟨fun rec off hc => ?_, fun d b hb => ?_, fun price money hc => ?_, fun money hm => ?_⟩
  · have hfind : ∀ key, userdbFind p.shared.users key = some (rec, off) → rec.Sound :=
      fun key hf => hI.shared.1 rec (userdbFind_mem hf).1
    cases copy_step ha h hc with
    | kept rec₀ hcopy hkey hmoney hdec =>
      rcases hmoney with rfl | hmoney
      · exact hS.copy rec off hcopy
      · exact .inl (hmoney ▸ hGoal)
    | buy sock key d slot hth hf _ => exact hfind key hf
    | sell sock key n ds npc sold hth hf => exact hfind key hf
    | rumor sock key k now hth hf _ => exact hfind key hf
    | fakeRich sock key hth hf => exact hfind key hf
    | payoff sock key hth hf _ => exact hfind key hf
  · cases th' with
    | session sock key pc' =>
      cases pc' with
      | buy d' q' =>
        obtain ⟨b', hb', he⟩ := Option.map_eq_some_iff.1 hb
        cases he
        obtain ⟨pc, rfl, hs⟩ | ⟨he, -⟩ := ho
        · obtain ⟨rfl, -⟩ | ⟨q, rfl, hq⟩ := session_origin hs
          · cases hb'
          · obtain ⟨hmarket, ⟨b₀, hle, hb₀⟩ | ⟨slot₀, hf, rfl⟩⟩ := handleBuy_budget hq hb'
            · rw [hmarket]
              intro slot hslot hd
              have hb₁ : (Thread.session sock key (.buy d q)).budget = some (d, b₀) := by
                simp [Thread.budget, hb₀]
              exact (hS.budget d b₀ hb₁ slot hslot hd).trans hle
            · rw [hmarket]
              intro slot hslot hd
              exact (hI.shared.2 slot₀ (List.mem_of_find?_eq_some hf) slot hslot d
                (List.find?_some hf) hd).le
        · cases he
      | _ => cases hb
    | _ => cases hb
  · cases th' with
    | session sock key pc' =>
      obtain ⟨pc, rfl, hs⟩ | ⟨rfl, -⟩ := ho
      · cases pc' with
        | buy d q' =>
          obtain ⟨rfl, -⟩ | ⟨q, rfl, hq⟩ := session_origin hs
          · cases hc
          · obtain hq | ⟨hb, slot, hslot, hd, rfl⟩ := handleBuy_charges hq hc
            · exact hS.charges price money hq
            · exact hS.budget d money (by simp [Thread.budget, hb]) slot hslot hd
        | rumor k q' =>
          obtain ⟨rfl, -⟩ | ⟨q, rfl, hq⟩ := session_origin hs
          · cases hc
          · cases q' with
            | update now rec off =>
              cases hc
              obtain ⟨now', rfl, hf, hm⟩ := handleRumor_copy hq rfl
              exact hm
            | _ => cases hc
        | _ => cases hc
      · cases hc
    | _ => cases hc
  · cases th' with
    | login sock pc' =>
      cases pc' with
      | append key rec =>
        cases hm
        obtain ⟨pc, rfl, hs⟩ := ho
        obtain ⟨rfl, -, -⟩ := login_append hs
        obtain ⟨r, hr, hn⟩ := hs
        simp only [clientLogin] at hn
        split at hn
        · cases hn
          exact (by decide : (0 : ℤ) ≤ initialMoney)
        · split_ifs at hn <;> cases hn
      | _ => cases hm
    | session sock key pc' =>
      obtain ⟨pc, rfl, hs⟩ | ⟨rfl, -⟩ := ho
      · cases pc' with
        | fakeRich q' =>
          obtain ⟨rfl, -⟩ | ⟨q, rfl, hq⟩ := session_origin hs
          · cases hm
          · cases q' with
            | update rec off =>
              cases hm
              obtain ⟨rec₀, -, -, hmoney⟩ | ⟨rfl, -⟩ := handleFakeRich_copy hq rfl
              · exact hmoney ▸ hGoal
              · obtain ⟨r, -, hn⟩ := hq
                simp only [handleFakeRich] at hn
                split at hn <;> cases hn
            | _ => cases hm
        | _ => cases hm
      · cases hm
    | _ => cases hm

theorem balanced_step (hA : Accounts p) (hPaying : Paying p) (hPriced : Priced p) (hI : Balanced p)
    (hG : SpendGuard p l) (h : server.next p l = some p') : Balanced p' := by
  cases l with
  | env e =>
    exact Pool.inv_env hI h hI.shared fun _ hth => ⟨hth.copy, hth.budget, hth.charges, hth.assigns⟩
  | run t c =>
    refine Pool.inv_run hI h (fun th sh th' new hth hs =>
      ?_) fun th sh th' new hth hs j u _ hu hS => ?_
    · obtain ⟨a, r, ha, hr, rfl, rfl⟩ := threadStep_eq_some.1 hs
      refine ⟨⟨fun rec hrec => ?_, onePrice_step hG hI.shared.2 hth ha ⟨r, hr, rfl⟩⟩,
        spends_own hI hPriced.shared.2 hth ha ⟨r, hr, rfl⟩, fun u hu => ?_⟩
      · obtain ⟨off, hoff⟩ := List.getElem?_of_mem hrec
        rcases balance_step (hA.thread t th hth) (hI.thread t th hth)
          (hPaying.thread t th hth) (hG.range th hth) ha hr hoff with hold | hpos | ⟨-, hburned⟩
        · exact hI.shared.1 rec (List.mem_of_getElem? hold)
        · exact .inl hpos
        · exact .inr hburned
      · obtain ⟨n, rfl⟩ | ⟨sock, -, rfl⟩ := spawned_start hu
        · cases n <;> exact ⟨nofun, nofun, nofun, nofun⟩
        · exact ⟨nofun, nofun, nofun, nofun⟩
    · obtain ⟨a, r, ha, hr, rfl, rfl⟩ := threadStep_eq_some.1 hs
      exact ⟨hS.copy, fun d b hb => budget_frame hG hth ha
        ⟨r, hr, rfl⟩ (List.mem_of_getElem? hu) hS hb,
        hS.charges, hS.assigns⟩

end

theorem balanced_boot {cwd : Dir} {files : Files} {users : UserDb} {clock : ℕ}
    (h : ∀ rec ∈ users, rec.Sound) : Balanced (boot cwd files users clock) where
  shared := ⟨h, nofun⟩
  thread t th h := by
    obtain rfl := List.mem_singleton.1 (List.mem_of_getElem? h)
    exact ⟨nofun, nofun, nofun, nofun⟩

/-! ### Runs -/

/-- No balance goes negative in a run under the guard `C`: every balance is sound, no step but
`userdb_burn_at` writes a negative one, and no price is larger than the balance it was tested
against. -/
structure Solvent (C : Server → Label → Prop) (p : Server) : Prop where
  balance : ∀ rec ∈ p.shared.users, rec.Sound
  marker : ∀ l p', C p l → server.next p l = some p' → ∀ off rec,
    p'.shared.users[off]? = some rec → rec.money < 0 →
      p.shared.users[off]? = some rec ∨ opAt p l = some (.userdbBurnAt off)
  charge : ∀ u ∈ p.threads, ∀ price money, u.charges = some (price, money) → price ≤ money

theorem solvent_of_balanced {p : Server} (hA : Accounts p) (hPaying : Paying p) (hI : Balanced p) :
    Solvent SpendGuard p where
  balance := hI.shared.1
  charge u hu := by
    obtain ⟨t, ht⟩ := List.getElem?_of_mem hu
    exact (hI.thread t u ht).charges
  marker l p' hG h off rec hrec hneg := by
    cases l with
    | env e =>
      rw [Pool.next_env.1 h] at hrec
      exact .inl hrec
    | run t c =>
      obtain ⟨th, a, r, hth, ha, hr, -⟩ := server_run h
      rcases balance_step (hA.thread t th hth) (hI.thread t th hth) (hPaying.thread t th hth)
        (hG.range th hth) ha hr hrec with hold | hpos | ⟨hop, -⟩
      · exact .inl hold
      · omega
      · exact .inr ((opAt_run hth ha).trans (congrArg some hop))

/-- **Balances do not go negative** in guarded runs. -/
theorem solvent_of_guard {cwd : Dir} {files : Files} {users : UserDb} {clock : ℕ} {p : Server}
    (husers : ∀ rec ∈ users, rec.Sound)
    (hp : server.Reach SpendGuard (boot cwd files users clock) p) : Solvent SpendGuard p := by
  have hI : Accounts p ∧ Paying p ∧ Priced p ∧ Balanced p :=
    hp.invariant (I := fun p => Accounts p ∧ Paying p ∧ Priced p ∧ Balanced p)
      ⟨accounts_boot cwd files users clock, paying_boot cwd files users clock,
        priced_boot cwd files users clock, balanced_boot husers⟩
      fun p l p' _ ⟨hA, hPaying, hPriced, hI⟩ hG hn =>
        ⟨accounts_step hA hG.db hn, paying_step hPaying hn, priced_step hPriced hn,
          balanced_step hA hPaying hPriced hI hG hn⟩
  exact solvent_of_balanced hI.1 hI.2.1 hI.2.2.2

/-! ### Scripts -/

/-- Alice logs in and starts to buy the seeded document 47, which she can afford. -/
def affordScript : List Label :=
  startUp ++ connect 5 ++ logIn 2 (Key.ofBytes (utf8 "alice")) ++
    receive 2 (.buy 47) :: steps 2 3

/-- A guarded run in which Alice buys the document. -/
theorem solvent_alice : ∃ p, server.Reach SpendGuard freshBoot p ∧
    p.shared.users.map (·.money) = [200] ∧ Solvent SpendGuard p := by
  obtain ⟨p, hp, hf⟩ := server.exists_reach_of_any SpendGuard freshBoot (affordScript ++ steps 2 4)
    (fun p => p.shared.users.map (·.money) == [200]) (by decide +kernel)
  exact ⟨p, hp, eq_of_beq hf, solvent_of_guard (by simp) hp⟩

/-- The steps of the event thread in tick `i` beyond the twelve of every tick: the orders, the
leak and the news, and the removal of what is too old. -/
def tickExtra (i : ℕ) : ℕ :=
  (if i % evtNpcEvery = 0 then 1 else 0) + (if i % 8 = 0 then 2 else 0) +
    (if i % evtLeakEvery = 0 then 3 else 0) + (if i = 9 then 8 else 0) + if i = 23 then 2 else 0

/-- A tick of the event thread 1 whose listing fails, as its file cannot be written. -/
def failedTick (i : ℕ) : List Label :=
  .run 1 { ok := false } :: .env evtTickSec ::
    List.replicate (12 + tickExtra i) (.run 1 { ok := false })

/-- While Alice's handler is held up, the seeded document ages out and the counter comes to 47. -/
def reuseScript : List Label :=
  affordScript ++ steps 1 2 ++ ((List.range 46).map fun i => failedTick (i + 1)).flatten ++
    .run 1 {} :: .env evtTickSec :: steps 1 7 ++ .run 1 { rand := [2] } :: steps 1 1 ++
    .run 1 { rand := [3] } :: steps 1 3

/-- Without the guard Alice buys a document for more than she has. -/
theorem not_solvent : ∃ p, server.Reach System.anyStep freshBoot p ∧
    ¬ Solvent System.anyStep p := by
  obtain ⟨p, hp, hf⟩ :=
    server.exists_reach_of_any System.anyStep freshBoot (reuseScript ++ steps 2 4)
    (fun p => p.shared.users.map (·.money) == [-500]) (by decide +kernel)
  refine ⟨p, hp, fun h => ?_⟩
  obtain ⟨rec, hrec, hmoney⟩ : ∃ rec ∈ p.shared.users, rec.money = -500 :=
    List.mem_map.1 (by rw [eq_of_beq hf]; exact List.mem_singleton_self _)
  rcases h.balance rec hrec with hs | hs <;> omega

end UnderFlow
