import UnderFlow.Server.Origin

/-!
# Copies of records

Five handlers read a record with `userdb_find`, keep the copy, and write it back with
`userdb_update_at`; nothing holds the record between the two.

* `Thread.copy` : the copy a thread holds, with its offset.
* `users_step` : what a step can do to the database.
* `copy_step` : a copy was held before the step, or has just been read.
* `Accounts` : copies agree with the database on keys, and every session has a record.  It is kept
  as long as the calls of the database succeed (`accounts_step`); then the keys of the records
  never change (`users_keys`).
-/

namespace UnderFlow

variable {s s' : Shared} {c : Choice} {th th' : Thread} {a : Action Thread}

/-! ### Copies -/

/-- What a thread keeps of a record: the copy, and the offset it was read at. -/
abbrev Copy := UserRecord × ℕ

/-- The copy a purchase works with. -/
def Buy.copy : Buy → Option Copy
  | .take rec off | .stat _ rec off | .move _ rec off | .charge _ rec off => some (rec, off)
  | _ => none

/-- The copy a sale works with. -/
def Sell.copy : Sell → Option Copy
  | .credit _ _ rec off => some (rec, off)
  | _ => none

/-- The copy a rumor works with. -/
def Rumoring.copy : Rumoring → Option Copy
  | .update _ rec off => some (rec, off)
  | _ => none

/-- The copy a full purse works with. -/
def FakeRich.copy : FakeRich → Option Copy
  | .goal rec off | .update rec off => some (rec, off)
  | _ => none

/-- The copy an escape works with. -/
def Payoff.copy : Payoff → Option Copy
  | .commit rec off | .purge _ rec off _ | .update _ rec off => some (rec, off)
  | _ => none

/-- The copy a command works with. -/
def Command.copy : Command → Option Copy
  | .buy _ pc => pc.copy
  | .sell _ _ pc => pc.copy
  | .rumor _ pc => pc.copy
  | .fakeRich pc => pc.copy
  | .payoff pc => pc.copy
  | _ => none

/-- The copy of a record a thread is going to write back. -/
def Thread.copy : Thread → Option Copy
  | .session _ _ pc => pc.copy
  | _ => none

/-- The sale whose last lookup failed. -/
def Thread.indeterminate : Thread → Bool
  | .session _ _ (.sell _ _ (.creditIndeterminate _ _ _)) => true
  | _ => false

/-- The escape that has not been decided yet. -/
def Thread.undecided : Thread → Bool
  | .session _ _ (.payoff (.commit _ _)) => true
  | _ => false

/-! ### Writes -/

/-- What a step can do to the database. -/
inductive UsersStep (users : UserDb) (th : Thread) (users' : UserDb) : Prop
  | same (h : users' = users)
  | append (sock : ℕ) (key : Key) (rec : UserRecord) (hth : th = .login sock (.append key rec))
      (h : users' = users ++ [rec])
  | update (rec : UserRecord) (off : ℕ) (rec' : UserRecord) (hcopy : th.copy = some (rec, off))
      (hdec : th.undecided = false) (hkey : rec'.key = rec.key) (h : users' = users.set off rec')
  | indeterminate (hth : th.indeterminate = true)
  | burn (off : ℕ) (h : users' = userdbBurnAt users off)
  | reset (h : users' = userdbResetRound users initialMoney)

theorem Action.Steps.users_eq {β : Type} {a : Action β} {b : β} {l : List Store} {fd : Option ℕ}
    (h : a.Steps s c s' b) (hw : a.Within l fd) (hl : Store.users ∉ l) : s'.users = s.users :=
  h.frame.users (hw.store_ne hl)

/-- The effect of `userdb_update_at`. -/
theorem exec_updateAt {off : ℕ} {rec : UserRecord} {r}
    (h : (Op.userdbUpdateAt off rec).exec s c = some (s', r)) :
    s'.users = s.users ∨ s'.users = s.users.set off rec := by
  simp only [Op.exec] at h
  split_ifs at h <;> cases h
  · exact .inr rfl
  · exact .inl rfl

/-- The effect of `userdb_burn_at`. -/
theorem exec_burnAt {off : ℕ} {r} (h : (Op.userdbBurnAt off).exec s c = some (s', r)) :
    s'.users = s.users ∨ s'.users = userdbBurnAt s.users off := by
  simp only [Op.exec] at h
  split_ifs at h <;> cases h
  · exact .inr rfl
  · exact .inl rfl

/-- The effect of `userdb_reset_round`. -/
theorem exec_resetRound {m : ℤ} {r} (h : (Op.userdbResetRound m).exec s c = some (s', r)) :
    s'.users = s.users ∨ s'.users = userdbResetRound s.users m := by
  simp only [Op.exec] at h
  split_ifs at h <;> cases h
  · exact .inr rfl
  · exact .inl rfl

theorem burnUserByKey_users {key : Key} {pc : Burn} {b}
    (h : (burnUserByKey key pc).Steps s c s' b) :
    s'.users = s.users ∨ ∃ off, s'.users = userdbBurnAt s.users off := by
  cases pc with
  | burn off =>
    obtain ⟨r, hr, -⟩ := h
    exact (exec_burnAt hr).imp_right fun h => ⟨off, h⟩
  | purge pc => exact .inl (h.users_eq (purgeDocsIn_within (.user key) pc) (by simp))
  | _ => exact .inl (h.frame.users (by simp [burnUserByKey, Op.store]))

theorem triggerRoundReset_users {pc : Reset} {b} (h : (triggerRoundReset pc).Steps s c s' b) :
    s'.users = s.users ∨ s'.users = userdbResetRound s.users initialMoney := by
  cases pc with
  | records =>
    obtain ⟨r, hr, -⟩ := h
    exact exec_resetRound hr
  | masterPurge pc => exact .inl (h.users_eq (purgeDocsIn_within .master pc) (by simp))
  | userPurge name todo pc =>
    exact .inl (h.users_eq (purgeDocsIn_within (.entry name) pc) (by simp))
  | seed pc => exact .inl (h.users_eq (seedMarketAndNpc_within pc) (by simp))
  | _ => exact .inl (h.frame.users (by simp [triggerRoundReset, Op.store]))

/-- A command that is going to write its copy back. -/
theorem clientLoop_users {sock : ℕ} {key : Key} {pc : Command} {b}
    (h : (clientLoop sock key pc).Steps s c s' b) :
    UsersStep s.users (.session sock key pc) s'.users := by
  cases pc with
  | bankruptcy q =>
    cases q with
    | burn off =>
      obtain ⟨r, hr, -⟩ := h
      exact (exec_burnAt hr).elim .same (.burn off)
    | _ => exact .same (h.frame.users (by simp [clientLoop, Action.map, checkBankruptcy, Op.store]))
  | buy d q =>
    cases q with
    | charge slot rec off =>
      obtain ⟨r, hr, -⟩ := h
      exact (exec_updateAt hr).elim .same (.update rec off _ rfl rfl rfl)
    | _ => exact .same (h.frame.users (by simp [clientLoop, Action.map, handleBuy, Op.store]))
  | sell n ds q =>
    cases q with
    | credit npc sold rec off =>
      obtain ⟨r, hr, -⟩ := h
      exact (exec_updateAt hr).elim .same (.update rec off _ rfl rfl rfl)
    | creditIndeterminate npc sold rec => exact .indeterminate rfl
    | _ => exact .same (h.frame.users (by simp [clientLoop, Action.map, handleSell, Op.store]))
  | rumor k q =>
    cases q with
    | update now rec off =>
      obtain ⟨r, hr, -⟩ := h
      exact (exec_updateAt hr).elim .same (.update rec off _ rfl rfl rfl)
    | inventory q => exact .same (h.users_eq (handleInventory_within sock key q) (by simp))
    | _ => exact .same (h.frame.users (by simp [clientLoop, Action.map, handleRumor, Op.store]))
  | payoff q =>
    cases q with
    | update e rec off =>
      obtain ⟨r, hr, -⟩ := h
      exact (exec_updateAt hr).elim .same (.update rec off _ rfl rfl rfl)
    | purge e rec off q => exact .same (h.users_eq (purgeDocsIn_within (.user key) q) (by simp))
    | roundEnd q => exact .same (h.users_eq (fireRoundEndCountdown_within _ q) (by simp))
    | _ => exact .same (h.frame.users (by simp [clientLoop, Action.map, handlePayoff, Op.store]))
  | fakeRich q =>
    cases q with
    | update rec off =>
      obtain ⟨r, hr, -⟩ := h
      exact (exec_updateAt hr).elim .same (.update rec off _ rfl rfl rfl)
    | list rec q => exact .same (h.users_eq (sandboxList_within key q) (by simp))
    | _ => exact .same (h.frame.users (by simp [clientLoop, Action.map, handleFakeRich, Op.store]))
  | minigame code q =>
    cases q with
    | burn serial q =>
      obtain ⟨n, hn, -⟩ := Action.steps_map.1 h
      obtain ⟨m, hm, -⟩ := Action.steps_map.1 hn
      rcases burnUserByKey_users hm with hs | ⟨off, hs⟩
      · exact .same hs
      · exact .burn off hs
    | _ => exact .same (h.frame.users
        (by simp [clientLoop, Action.map, handleMinigameSubmit, Op.store]))
  | dispose d q => exact .same (h.users_eq (handleDispose_within sock key d q) (by simp))
  | inventory q => exact .same (h.users_eq (handleInventory_within sock key q) (by simp))
  | selfRaid q => exact .same (h.users_eq (fireSelfPoliceRaid_within sock key q) (by simp))
  | leak q => exact .same (h.users_eq (firePublicLeak_within q) (by simp))
  | endround q => exact .same (h.users_eq (fireRoundEndCountdown_within _ q) (by simp))
  | _ => exact .same (h.frame.users (by simp [clientLoop, Op.store]))

/-- **What a step can do to the database.** -/
theorem users_step (ha : th.action = some a) (h : a.Steps s c s' th') :
    UsersStep s.users th s'.users := by
  cases th with
  | session sock key pc =>
    cases ha
    obtain ⟨n, hn, -⟩ := Action.steps_map.1 h
    exact clientLoop_users hn
  | login sock pc =>
    cases ha
    cases pc with
    | append key rec =>
      obtain ⟨r, hr, -⟩ := h
      simp only [clientLogin, Action.map, Op.exec] at hr
      split_ifs at hr <;> cases hr
      · exact .append sock key rec rfl rfl
      · exact .same rfl
    | _ => exact .same (h.frame.users (by simp [clientLogin, Action.map, Op.store]))
  | raidTimeout serial pc =>
    cases ha
    cases pc with
    | burn key todo pc =>
      obtain ⟨n, hn, -⟩ := Action.steps_map.1 h
      obtain ⟨m, hm, -⟩ := Action.steps_map.1 hn
      rcases burnUserByKey_users hm with hs | ⟨off, hs⟩
      · exact .same hs
      · exact .burn off hs
    | _ => exact .same (h.frame.users (by simp [Action.map, periodicRaidTimeoutThread, Op.store]))
  | roundEndTimer pc =>
    cases ha
    cases pc with
    | reset pc =>
      obtain ⟨n, hn, -⟩ := Action.steps_map.1 h
      obtain ⟨m, hm, -⟩ := Action.steps_map.1 hn
      exact (triggerRoundReset_users hm).elim .same .reset
    | _ => exact .same (h.frame.users (by simp [Action.map, roundEndTimerThread, Op.store]))
  | main pc => cases ha; exact .same (h.users_eq (mainThread_within pc) (by simp))
  | disconnect sock pc =>
    cases ha; exact .same (h.users_eq (clientDisconnect_within sock pc) (by simp))
  | event v pc => cases ha; exact .same (h.users_eq (eventThreadFunc_within v pc) (by simp))
  | npcSequence pc => cases ha; exact .same (h.users_eq (eventDoNpcSequence_within pc) (by simp))
  | leakRecovery mask dur pc =>
    cases ha
    exact .same (h.users_eq (leakRecoveryThread_within mask dur pc) (by simp))
  | finished => cases ha

/-! ### Reads -/

/-- Where the copy of a thread comes from: it was held before the step, or it has just been read. -/
inductive CopyStep (s : Shared) (th : Thread) (rec : UserRecord) (off : ℕ) (th' : Thread) : Prop
  | kept (rec₀ : UserRecord) (hcopy : th.copy = some (rec₀, off)) (hkey : rec.key = rec₀.key)
      (hmoney : rec = rec₀ ∨ rec.money = s.round.goalMoney)
      (hdec : th.undecided = true → s.round.goalMoney ≤ rec₀.money)
  | buy (sock : ℕ) (key : Key) (docId : ℤ) (slot : MarketSlot)
      (hth : th = .session sock key (.buy docId (.lookup slot)))
      (hfind : userdbFind s.users key = some (rec, off)) (hmoney : slot.basePrice ≤ rec.money)
  | sell (sock : ℕ) (key : Key) (npcId : ℤ) (docIds : List ℤ) (npc : NPCSlot)
      (sold : List DocFile) (hth : th = .session sock key (.sell npcId docIds (.lookup npc sold)))
      (hfind : userdbFind s.users key = some (rec, off))
  | rumor (sock : ℕ) (key target : Key) (now : ℕ)
      (hth : th = .session sock key (.rumor target (.lookup now)))
      (hfind : userdbFind s.users key = some (rec, off)) (hmoney : rumorFee ≤ rec.money)
  | fakeRich (sock : ℕ) (key : Key) (hth : th = .session sock key (.fakeRich .lookup))
      (hfind : userdbFind s.users key = some (rec, off))
  | payoff (sock : ℕ) (key : Key) (hth : th = .session sock key (.payoff .lookup))
      (hfind : userdbFind s.users key = some (rec, off)) (hdec : th'.undecided = true)

section

variable {sock : ℕ} {key : Key} {rec : UserRecord} {off : ℕ}

theorem handleBuy_copy {d : ℤ} {q q' : Buy} (h : (handleBuy sock key d q).Steps s c s' (.cont q'))
    (hc : q'.copy = some (rec, off)) : q.copy = some (rec, off) ∨ ∃ slot, q = .lookup slot ∧
      userdbFind s.users key = some (rec, off) ∧ slot.basePrice ≤ rec.money := by
  cases q with
  | find | count slot =>
    obtain ⟨r, -, hn⟩ := h
    simp only [handleBuy] at hn
    split at hn <;> (try split_ifs at hn) <;> cases hn <;> cases hc
  | lookup slot =>
    obtain ⟨r, hr, hn⟩ := h
    obtain ⟨-, ⟨-, p, hp, rfl⟩ | ⟨-, rfl⟩⟩ := exec_find hr
    · simp only [handleBuy] at hn
      split_ifs at hn with hm
      cases hn
      cases hc
      exact .inr ⟨slot, rfl, hp, not_lt.1 hm⟩
    · cases hn
  | take rec off =>
    obtain ⟨r, -, hn⟩ := h
    simp only [handleBuy] at hn
    split at hn <;> cases hn
    exact .inl hc
  | stat slot rec off | move slot rec off =>
    obtain ⟨r, -, hn⟩ := h
    simp only [handleBuy] at hn
    split_ifs at hn <;> cases hn
    · exact .inl hc
    · cases hc
  | _ =>
    obtain ⟨r, -, hn⟩ := h
    cases hn
    try cases hc

theorem check_copy {npc : NPCSlot} {u : Tags} {todo : List ℤ} {q' : Sell}
    (h : .cont q' = Sell.check npc u todo) : q'.copy = none := by
  cases todo with
  | nil =>
    simp only [Sell.check] at h
    split_ifs at h
    cases h
    rfl
  | cons d todo => cases h; rfl

theorem disposeNext_copy {npc : NPCSlot} {sold : List DocFile} (todo : List ℤ) :
    (Sell.disposeNext npc sold todo).copy = none := by
  cases todo <;> rfl

theorem handleSell_copy {n : ℤ} {ds : List ℤ} {q q' : Sell}
    (h : (handleSell sock key n ds q).Steps s c s' (.cont q')) (hc : q'.copy = some (rec, off)) :
    ∃ npc sold, q = .lookup npc sold ∧ userdbFind s.users key = some (rec, off) := by
  cases q with
  | findNpc | frozen npc df todo u =>
    obtain ⟨r, -, hn⟩ := h
    simp only [handleSell] at hn
    split at hn
    · cases hn
    · rw [check_copy hn] at hc
      cases hc
  | has npc d todo u | read npc d todo u =>
    obtain ⟨r, -, hn⟩ := h
    simp only [handleSell] at hn
    split at hn <;> cases hn
    cases hc
  | take =>
    obtain ⟨r, -, hn⟩ := h
    simp only [handleSell] at hn
    split at hn <;> cases hn
    rw [disposeNext_copy] at hc
    cases hc
  | dispose npc d todo sold =>
    obtain ⟨r, -, hn⟩ := h
    cases hn
    rw [disposeNext_copy] at hc
    cases hc
  | lookup npc sold =>
    obtain ⟨r, hr, hn⟩ := h
    obtain ⟨-, ⟨-, p, hp, rfl⟩ | ⟨-, rfl⟩⟩ := exec_find hr <;> cases hn <;> cases hc
    exact ⟨npc, sold, rfl, hp⟩
  | _ =>
    obtain ⟨r, -, hn⟩ := h
    cases hn
    try cases hc

theorem handleRumor_copy {k : Key} {q q' : Rumoring}
    (h : (handleRumor sock key k q).Steps s c s' (.cont q')) (hc : q'.copy = some (rec, off)) :
    ∃ now, q = .lookup now ∧ userdbFind s.users key = some (rec, off) ∧ rumorFee ≤ rec.money := by
  cases q with
  | enter =>
    obtain ⟨r, -, hn⟩ := h
    simp only [handleRumor] at hn
    split at hn <;> cases hn
    cases hc
  | lookup now =>
    obtain ⟨r, hr, hn⟩ := h
    obtain ⟨-, ⟨-, p, hp, rfl⟩ | ⟨-, rfl⟩⟩ := exec_find hr
    · simp only [handleRumor] at hn
      split_ifs at hn with hm <;> cases hn <;> cases hc
      exact ⟨now, rfl, hp, not_lt.1 hm⟩
    · cases hn
      cases hc
  | inventory q =>
    obtain ⟨m, -, hn⟩ := Action.steps_map.1 h
    rcases m with _ | _ | _ <;> cases hn
    cases hc
  | _ =>
    obtain ⟨r, -, hn⟩ := h
    cases hn
    try cases hc

theorem handleFakeRich_copy {q q' : FakeRich}
    (h : (handleFakeRich sock key q).Steps s c s' (.cont q')) (hc : q'.copy = some (rec, off)) :
    (∃ rec₀, q.copy = some (rec₀, off) ∧ rec.key = rec₀.key ∧ rec.money = s.round.goalMoney) ∨
      (q = .lookup ∧ userdbFind s.users key = some (rec, off)) := by
  cases q with
  | lookup =>
    obtain ⟨r, hr, hn⟩ := h
    obtain ⟨-, ⟨-, p, hp, rfl⟩ | ⟨-, rfl⟩⟩ := exec_find hr <;> cases hn
    cases hc
    exact .inr ⟨rfl, hp⟩
  | goal rec₀ off₀ =>
    obtain ⟨r, hr, hn⟩ := h
    cases hr
    cases hn
    cases hc
    exact .inl ⟨rec₀, rfl, rfl, rfl⟩
  | list rec₀ q =>
    obtain ⟨m, -, hn⟩ := Action.steps_map.1 h
    rcases m with _ | _ | _ <;> cases hn <;> cases hc
  | _ =>
    obtain ⟨r, -, hn⟩ := h
    cases hn
    try cases hc

theorem handlePayoff_copy {q q' : Payoff}
    (h : (handlePayoff sock key q).Steps s c s' (.cont q')) (hc : q'.copy = some (rec, off)) :
    (q = .commit rec off ∧ s.round.goalMoney ≤ rec.money) ∨
      (q.copy = some (rec, off) ∧ ∃ e pc, q = .purge e rec off pc) ∨
      (q = .lookup ∧ q' = .commit rec off ∧ userdbFind s.users key = some (rec, off)) := by
  cases q with
  | lookup =>
    obtain ⟨r, hr, hn⟩ := h
    obtain ⟨-, ⟨-, p, hp, rfl⟩ | ⟨-, rfl⟩⟩ := exec_find hr <;> cases hn
    cases hc
    exact .inr (.inr ⟨rfl, rfl, hp⟩)
  | commit rec₀ off₀ =>
    obtain ⟨r, hr, hn⟩ := h
    cases hr
    simp only [handlePayoff] at hn
    split at hn
    · cases hn
    · rename_i hok
      cases hn
      cases hc
      exact .inl ⟨rfl, roundPayoff_eq_ok hok⟩
  | purge e rec₀ off₀ q =>
    obtain ⟨m, -, hn⟩ := Action.steps_map.1 h
    rcases m with _ | _ | _
    all_goals cases hn; cases hc; exact .inr (.inl ⟨rfl, e, q, rfl⟩)
  | goalUpdate e =>
    obtain ⟨r, -, hn⟩ := h
    simp only [handlePayoff] at hn
    split_ifs at hn
    cases hn
    cases hc
  | roundEnd q =>
    obtain ⟨m, -, hn⟩ := Action.steps_map.1 h
    rcases m with _ | _ | _ <;> cases hn
    cases hc
  | _ =>
    obtain ⟨r, -, hn⟩ := h
    cases hn
    try cases hc

/-- **Where the copy of a thread comes from.** -/
theorem copy_step (ha : th.action = some a) (h : a.Steps s c s' th')
    (hc : th'.copy = some (rec, off)) : CopyStep s th rec off th' := by
  cases th' with
  | session sock key pc' =>
    obtain ⟨pc, rfl, hs⟩ | ⟨rfl, -⟩ := thread_origin ha h
    · have horigin := session_origin hs
      cases pc' with
      | buy d q' =>
        obtain ⟨rfl, -⟩ | ⟨q, rfl, hq⟩ := horigin
        · cases hc
        · obtain hq | ⟨slot, rfl, hf, hm⟩ := handleBuy_copy hq hc
          · exact .kept rec hq rfl (.inl rfl) (by simp [Thread.undecided])
          · exact .buy sock key d slot rfl hf hm
      | sell n ds q' =>
        obtain ⟨rfl, -⟩ | ⟨q, rfl, hq⟩ := horigin
        · cases hc
        · obtain ⟨npc, sold, rfl, hf⟩ := handleSell_copy hq hc
          exact .sell sock key n ds npc sold rfl hf
      | rumor k q' =>
        obtain ⟨rfl, -⟩ | ⟨q, rfl, hq⟩ := horigin
        · cases hc
        · obtain ⟨now, rfl, hf, hm⟩ := handleRumor_copy hq hc
          exact .rumor sock key k now rfl hf hm
      | fakeRich q' =>
        obtain ⟨rfl, -⟩ | ⟨q, rfl, hq⟩ := horigin
        · cases hc
        · obtain ⟨rec₀, hq, hk, hm⟩ | ⟨rfl, hf⟩ := handleFakeRich_copy hq hc
          · exact .kept rec₀ hq hk (.inr hm) (by simp [Thread.undecided])
          · exact .fakeRich sock key rfl hf
      | payoff q' =>
        obtain ⟨rfl, -⟩ | ⟨q, rfl, hq⟩ := horigin
        · cases hc
        · obtain ⟨rfl, hm⟩ | ⟨hq, e, pc, rfl⟩ | ⟨rfl, rfl, hf⟩ := handlePayoff_copy hq hc
          · exact .kept rec rfl rfl (.inl rfl) fun _ => hm
          · exact .kept rec hq rfl (.inl rfl) (by simp [Thread.undecided])
          · exact .payoff sock key rfl hf rfl
      | _ => cases hc
    · cases hc
  | _ => cases hc

end

/-! ### Accounts -/

/-- The key whose record a login has found or appended. -/
def Login.account : Login → Option Key
  | .register key _ | .mkdir key _ | .goal key _ | .reply key _ _ | .marketSnapshot key
  | .marketSend key _ _ | .npcSnapshot key | .npcSend key _ _ | .frozenMask key
  | .frozenSend key _ => some key
  | _ => none

/-- The key a connection has logged in with. -/
def Thread.account : Thread → Option Key
  | .login _ pc => pc.account
  | .session _ key _ => some key
  | _ => none

/-- The record a login is going to append has its key. -/
def Thread.AppendsOwn : Thread → Prop
  | .login _ (.append key rec) => rec.key = key
  | _ => True

/-- How a thread and the database agree. -/
structure Account (s : Shared) (th : Thread) : Prop where
  copy : ∀ rec off, th.copy = some (rec, off) → keyAt s.users off = some rec.key
  known : ∀ key, th.account = some key → ∃ r ∈ s.users, r.key = key
  append : th.AppendsOwn
  determinate : th.indeterminate = false

/-- Copies agree with the database on keys, and every session has a record. -/
abbrev Accounts : Server → Prop := Pool.Inv (fun _ => True) Account

/-- The thread makes a call of the database whose failure it takes for something else: a failed
lookup at a login for a new account, a failed append for an account that was created, and a failed
lookup of a sale for a record. -/
def Thread.trustsDb : Thread → Bool
  | .login _ (.lookup _) | .login _ (.append _ _) | .session _ _ (.sell _ _ (.lookup _ _)) => true
  | _ => false

/-- The calls of the database that a login or a sale does not test succeed. -/
def DbOk (p : Server) (l : Label) : Prop :=
  ∀ th ∈ threadAt p l, th.trustsDb = true → (choiceOf l).ok = true

instance (p : Server) (l : Label) : Decidable (DbOk p l) :=
  inferInstanceAs (Decidable (∀ th ∈ threadAt p l, _))

theorem DbOk.ok {p : Server} {t : ℕ} (h : DbOk p (.run t c)) (hth : p.threads[t]? = some th)
    (hdb : th.trustsDb = true) : c.ok = true :=
  h th hth hdb

/-- The balance that a sale of the thread is about to write is an `int32_t`. -/
def Thread.CreditFits : Thread → Prop
  | .session _ _ (.sell _ _ (.credit npc _ rec _)) => InInt32 (rec.money + npc.bounty)
  | _ => True

instance (th : Thread) : Decidable th.CreditFits := by
  unfold Thread.CreditFits
  split <;> infer_instance

/-- No sale takes a balance out of the range of an `int32_t`. -/
def InRange (p : Server) (l : Label) : Prop := ∀ th ∈ threadAt p l, th.CreditFits

instance (p : Server) (l : Label) : Decidable (InRange p l) :=
  inferInstanceAs (Decidable (∀ th ∈ threadAt p l, _))

theorem userdbFind_mem {db : UserDb} {key : Key} {rec : UserRecord} {off : ℕ}
    (h : userdbFind db key = some (rec, off)) : rec ∈ db ∧ rec.key = key :=
  ⟨List.mem_of_getElem? (userdbFind_eq_some.1 h).1, (userdbFind_eq_some.1 h).2.1⟩

/-- The keys of the records, while no record is appended. -/
theorem users_keys (hA : Account s th) (hu : UsersStep s.users th s'.users) :
    (∀ i, keyAt s'.users i = keyAt s.users i) ∨
      ∃ sock key rec, th = .login sock (.append key rec) ∧ s'.users = s.users ++ [rec] := by
  cases hu with
  | same h => exact .inl fun i => by rw [h]
  | append sock key rec hth h => exact .inr ⟨sock, key, rec, hth, h⟩
  | update rec off rec' hcopy hdec hkey h =>
    rw [h]
    exact .inl (keyAt_set (hkey ▸ hA.copy rec off hcopy))
  | indeterminate hth => rw [hA.determinate] at hth; cases hth
  | burn off h => exact .inl fun i => by rw [h, keyAt_burnAt]
  | reset h => exact .inl fun i => by rw [h, keyAt_resetRound]

/-- Keys at their offsets are never lost. -/
theorem users_keys_le (hA : Account s th) (hu : UsersStep s.users th s'.users) {i : ℕ} {k : Key}
    (h : keyAt s.users i = some k) : keyAt s'.users i = some k := by
  obtain hk | ⟨sock, key, rec, -, hs⟩ := users_keys hA hu
  · rw [hk, h]
  · rw [hs, keyAt_append h]

/-- Records are never lost. -/
theorem record_kept (hA : Account s th) (hu : UsersStep s.users th s'.users) {k : Key}
    (h : ∃ r ∈ s.users, r.key = k) : ∃ r ∈ s'.users, r.key = k := by
  obtain ⟨r, hr, rfl⟩ := h
  obtain ⟨i, hi⟩ := List.getElem?_of_mem hr
  obtain ⟨r', hr', hk'⟩ := keyAt_eq_some.1 (users_keys_le hA hu (keyAt_eq_some.2 ⟨r, hi, rfl⟩))
  exact ⟨r', List.mem_of_getElem? hr', hk'⟩

theorem Account.frame (hA : Account s th) (hu : UsersStep s.users th s'.users) {u : Thread}
    (hu' : Account s u) : Account s' u where
  copy rec off hc := users_keys_le hA hu (hu'.copy rec off hc)
  known key hk := record_kept hA hu (hu'.known key hk)
  append := hu'.append
  determinate := hu'.determinate

section

variable {sock : ℕ} {key k : Key}

theorem login_account {pc pc' : Login} (h : (clientLogin sock pc).Steps s c s' (.cont pc'))
    (hk : pc'.account = some k) : pc.account = some k ∨
      (∃ rec off, userdbFind s.users k = some (rec, off) ∧ s' = s) ∨
      (∃ rec, pc = .append k rec ∧ (c.ok = true → s'.users = s.users ++ [rec])) := by
  cases pc with
  | recv | duplicate key | frozenMask key =>
    obtain ⟨r, -, hn⟩ := h
    simp only [clientLogin] at hn
    split at hn <;> cases hn
    all_goals exact .inl hk
  | lookup key =>
    obtain ⟨r, hr, hn⟩ := h
    obtain ⟨rfl, ⟨-, p, hp, rfl⟩ | ⟨-, rfl⟩⟩ := exec_find hr
    · simp only [clientLogin] at hn
      split_ifs at hn <;> cases hn <;> cases hk
      exact .inr (.inl ⟨p.1, p.2, hp, rfl⟩)
    · cases hn
      cases hk
  | append key rec =>
    obtain ⟨r, hr, hn⟩ := h
    cases hn
    cases hk
    refine .inr (.inr ⟨rec, rfl, fun hok => ?_⟩)
    simp only [clientLogin, Op.exec, hok, ↓reduceIte] at hr
    cases hr
    rfl
  | marketSnapshot key =>
    obtain ⟨r, -, hn⟩ := h
    cases hn
    left
    cases r <;> exact hk
  | marketSend key slot todo =>
    obtain ⟨r, -, hn⟩ := h
    cases hn
    left
    cases todo <;> exact hk
  | npcSnapshot key =>
    obtain ⟨r, -, hn⟩ := h
    cases hn
    left
    cases r <;> exact hk
  | npcSend key npc todo =>
    obtain ⟨r, -, hn⟩ := h
    cases hn
    left
    cases todo <;> exact hk
  | _ =>
    obtain ⟨r, -, hn⟩ := h
    cases hn
    try exact .inl hk

/-- A login ends in a session after the synchronisation of the frozen tags. -/
theorem login_ret {pc : Login} (h : (clientLogin sock pc).Steps s c s' (.ret (some k))) :
    pc = .frozenMask k ∨ ∃ mask, pc = .frozenSend k mask := by
  cases pc with
  | recv | duplicate key =>
    obtain ⟨r, -, hn⟩ := h
    simp only [clientLogin] at hn
    split at hn <;> cases hn
  | frozenMask key =>
    obtain ⟨r, -, hn⟩ := h
    simp only [clientLogin] at hn
    split_ifs at hn
    cases hn
    exact .inl rfl
  | lookup key =>
    obtain ⟨r, hr, hn⟩ := h
    obtain ⟨-, ⟨-, p, -, rfl⟩ | ⟨-, rfl⟩⟩ := exec_find hr
    · simp only [clientLogin] at hn
      split_ifs at hn
    · cases hn
  | frozenSend key mask =>
    obtain ⟨r, -, hn⟩ := h
    cases hn
    exact .inr ⟨mask, rfl⟩
  | _ =>
    obtain ⟨r, -, hn⟩ := h
    cases hn

theorem login_append {pc : Login} {rec : UserRecord}
    (h : (clientLogin sock pc).Steps s c s' (.cont (.append key rec))) :
    pc = .lookup key ∧ rec.key = key ∧ (c.ok = true → userdbFind s.users key = none) := by
  cases pc with
  | recv | duplicate key | frozenMask key =>
    obtain ⟨r, -, hn⟩ := h
    simp only [clientLogin] at hn
    split at hn <;> cases hn
  | lookup key =>
    obtain ⟨r, hr, hn⟩ := h
    obtain ⟨-, ⟨-, p, -, rfl⟩ | ⟨hf, rfl⟩⟩ := exec_find hr
    · simp only [clientLogin] at hn
      split_ifs at hn
      all_goals cases hn
    · cases hn
      exact ⟨rfl, rfl, hf⟩
  | marketSnapshot key | npcSnapshot key =>
    obtain ⟨r, -, hn⟩ := h
    cases r <;> cases hn
  | marketSend key slot todo | npcSend key slot todo =>
    obtain ⟨r, -, hn⟩ := h
    cases todo <;> cases hn
  | _ =>
    obtain ⟨r, -, hn⟩ := h
    cases hn

theorem sell_creditIndeterminate {n : ℤ} {ds : List ℤ} {q : Sell} {npc : NPCSlot}
    {sold : List DocFile} {rec : UserRecord}
    (h : (handleSell sock key n ds q).Steps s c s' (.cont (.creditIndeterminate npc sold rec))) :
    q = .lookup npc sold ∧ (c.ok = true → userdbFind s.users key = none) := by
  cases q with
  | findNpc | frozen npc df todo u =>
    obtain ⟨r, -, hn⟩ := h
    simp only [handleSell, Sell.check] at hn
    split at hn
    · cases hn
    · split at hn <;> (try split_ifs at hn) <;> cases hn
  | has npc d todo u | read npc d todo u =>
    obtain ⟨r, -, hn⟩ := h
    simp only [handleSell] at hn
    split at hn <;> cases hn
  | take =>
    obtain ⟨r, -, hn⟩ := h
    cases ds <;> simp only [handleSell, Sell.disposeNext] at hn <;> split at hn <;> cases hn
  | dispose npc d todo sold =>
    obtain ⟨r, -, hn⟩ := h
    cases todo <;> cases hn
  | lookup npc sold =>
    obtain ⟨r, hr, hn⟩ := h
    obtain ⟨-, ⟨-, p, -, rfl⟩ | ⟨hf, rfl⟩⟩ := exec_find hr <;> cases hn
    exact ⟨rfl, hf⟩
  | _ =>
    obtain ⟨r, -, hn⟩ := h
    cases hn

end

theorem account_own {p : Server} {t : ℕ} (hA : Account p.shared th) (hok : DbOk p (.run t c))
    (hth : p.threads[t]? = some th) (ha : th.action = some a) (h : a.Steps p.shared c s' th') :
    Account s' th' where
  copy rec off hc := by
    refine users_keys_le hA (users_step ha h) ?_
    cases copy_step ha h hc with
    | kept rec₀ hcopy hkey hmoney hdec => rw [hkey, hA.copy rec₀ off hcopy]
    | buy _ _ _ _ _ hfind _ | sell _ _ _ _ _ _ _ hfind | rumor _ _ _ _ _ hfind _
    | fakeRich _ _ _ hfind | payoff _ _ _ hfind _ =>
      exact keyAt_eq_some.2 ⟨rec, (userdbFind_eq_some.1 hfind).1, rfl⟩
  known key hk := by
    have hkeep : ∀ k, th.account = some k → ∃ r ∈ s'.users, r.key = k :=
      (hA.frame (users_step ha h) hA).known
    have ho := thread_origin ha h
    cases th' with
    | session sock key' pc' =>
      cases hk
      obtain ⟨pc, rfl, -⟩ | ⟨-, pc, rfl, hs⟩ := ho
      · exact hkeep key rfl
      · obtain rfl | ⟨mask, rfl⟩ := login_ret hs <;> exact hkeep key rfl
    | login sock pc' =>
      obtain ⟨pc, rfl, hs⟩ := ho
      obtain hk | ⟨rec, off, hf, rfl⟩ | ⟨rec, rfl, happ⟩ := login_account hs hk
      · exact hkeep key hk
      · exact ⟨rec, userdbFind_mem hf⟩
      · cases ha
        exact ⟨rec, by simp [happ (hok.ok hth rfl)], hA.append⟩
    | _ => cases hk
  append := by
    have ho := thread_origin ha h
    cases th' with
    | login sock pc' =>
      obtain ⟨pc, rfl, hs⟩ := ho
      cases pc' with
      | append key rec => exact (login_append hs).2.1
      | _ => trivial
    | _ => trivial
  determinate := by
    have ho := thread_origin ha h
    by_contra hi
    rw [Bool.not_eq_false] at hi
    cases th' with
    | session sock key pc' =>
      obtain ⟨pc, rfl, hs⟩ | ⟨rfl, -⟩ := ho
      · cases pc' with
        | sell n ds q' =>
          obtain ⟨rfl, -⟩ | ⟨q, rfl, hq⟩ := session_origin hs
          · cases hi
          · cases q' with
            | creditIndeterminate npc sold rec =>
              obtain ⟨rfl, hf⟩ := sell_creditIndeterminate hq
              cases ha
              obtain ⟨r, hr, hk⟩ := hA.known key rfl
              exact userdbFind_eq_none.1 (hf (hok.ok hth rfl)) r hr hk
            | _ => cases hi
        | _ => cases hi
      · cases hi
    | _ => cases hi

/-- **Accounts are kept** while the database works. -/
theorem accounts_step {p p' : Server} {l : Label} (hA : Accounts p) (hok : DbOk p l)
    (h : server.next p l = some p') : Accounts p' := by
  cases l with
  | env e => exact Pool.inv_env hA h trivial fun th hth =>
    ⟨hth.copy, hth.known, hth.append, hth.determinate⟩
  | run t c =>
    refine Pool.inv_run hA h (fun th sh th' new hth hs => ?_) fun th sh th' new hth hs j u _ _ hu =>
      ?_
    · obtain ⟨a, r, ha, hr, rfl, rfl⟩ := threadStep_eq_some.1 hs
      refine ⟨trivial, account_own (hA.thread t th hth) hok hth ha ⟨r, hr, rfl⟩, fun u hu => ?_⟩
      obtain ⟨n, rfl⟩ | ⟨sock, -, rfl⟩ := spawned_start hu
      · cases n <;> exact ⟨nofun, nofun, trivial, rfl⟩
      · exact ⟨nofun, nofun, trivial, rfl⟩
    · obtain ⟨a, r, ha, hr, rfl, rfl⟩ := threadStep_eq_some.1 hs
      exact (hA.thread t th hth).frame (users_step ha ⟨r, hr, rfl⟩) hu

/-- The server starts with no account in use. -/
theorem accounts_boot (cwd : Dir) (files : Files) (users : UserDb) (clock : ℕ) :
    Accounts (boot cwd files users clock) where
  shared := trivial
  thread t th h := by
    obtain rfl := List.mem_singleton.1 (List.mem_of_getElem? h)
    exact ⟨nofun, nofun, trivial, rfl⟩

end UnderFlow
