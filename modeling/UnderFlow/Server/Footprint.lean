import UnderFlow.Server.Effect

/-!
# Footprints

* `Action.Within` : the stores a handler can write, and the connection it works on (`op_sock`).  A
  thread inside a handler leaves every store outside the footprint of the handler as it is.
* `Op.ordinary` : what a thread does that trades no documents and starts no raid; most programs do
  nothing else.
* `handleInventory_next` : an inventory goes on to its answer.
-/

namespace UnderFlow

variable {α β γ : Type} {l l' : List Store} {fd : Option ℕ}

/-- The descriptor an operation is called with. -/
def Op.sock : Op → Option ℕ
  | .packetSend sock _ | .packetRecv sock | .clientDuplicate sock _ | .clientAdd sock
  | .clientRegister sock _ | .clientRemove sock | .close sock => some sock
  | _ => none

/-- The action writes a store of `l`, if any, and is called with the descriptor `fd`, or with
none. -/
def Action.Within (l : List Store) (fd : Option ℕ) (a : Action β) : Prop :=
  (∀ st, a.op.store = some st → st ∈ l) ∧ ∀ x, a.op.sock = some x → fd = some x

@[simp] theorem Action.within_map {a : Action β} {f : β → γ} :
    (a.map f).Within l fd ↔ a.Within l fd := Iff.rfl

theorem Action.Within.mono {a : Action β} (h : a.Within l fd) (hl : ∀ st ∈ l, st ∈ l') :
    a.Within l' fd := ⟨fun st hst => hl st (h.1 st hst), h.2⟩

/-- A program without a descriptor, inside another one. -/
theorem Action.Within.inside {a : Action β} (h : a.Within l none) (hl : ∀ st ∈ l, st ∈ l') :
    a.Within l' fd := ⟨(h.mono hl).1, fun x hx => nomatch h.2 x hx⟩

theorem Action.Within.store_ne {a : Action β} {st : Store} (h : a.Within l fd) (hst : st ∉ l) :
    a.op.store ≠ some st := fun he => hst (h.1 st he)

theorem Action.Within.sock_eq_none {a : Action β} (h : a.Within l none) : a.op.sock = none :=
  Option.eq_none_iff_forall_ne_some.2 fun x hx => nomatch h.2 x hx

theorem purgeDocsIn_within (f : Folder) (pc : Purge) : (purgeDocsIn f pc).Within [.files] none := by
  cases pc <;> simp [Action.Within, purgeDocsIn, Op.store, Op.sock]

theorem seedMarketAndNpc_within (pc : Seed) :
    (seedMarketAndNpc pc).Within [.files, .market, .npcs] none := by
  cases pc <;> simp [Action.Within, seedMarketAndNpc, Op.store, Op.sock]

theorem triggerRoundReset_within (pc : Reset) :
    (triggerRoundReset pc).Within [.files, .users, .market, .npcs, .round, .rumor] none := by
  cases pc with
  | masterPurge pc => exact (purgeDocsIn_within _ pc).mono (by decide)
  | userPurge name todo pc => exact (purgeDocsIn_within _ pc).mono (by decide)
  | seed pc => exact (seedMarketAndNpc_within pc).mono (by decide)
  | _ => simp [Action.Within, triggerRoundReset, Op.store, Op.sock]

theorem roundEndTimerThread_within (pc : RoundEndTimer) :
    (roundEndTimerThread pc).Within [.files, .users, .market, .npcs, .round, .rumor] none := by
  cases pc with
  | reset pc => exact triggerRoundReset_within pc
  | _ => simp [Action.Within, roundEndTimerThread, Op.store, Op.sock]

theorem fireRoundEndCountdown_within (text : Bytes) (pc : RoundEnd) :
    (fireRoundEndCountdown text pc).Within [.round] none := by
  cases pc <;> simp [Action.Within, fireRoundEndCountdown, Op.store, Op.sock]

theorem handlePayoff_within (sock : ℕ) (key : Key) (pc : Payoff) :
    (handlePayoff sock key pc).Within [.files, .users, .round] (some sock) := by
  cases pc with
  | purge e rec offset pc => exact (purgeDocsIn_within _ pc).inside (by decide)
  | roundEnd pc => exact (fireRoundEndCountdown_within _ pc).inside (by decide)
  | _ => simp [Action.Within, handlePayoff, Op.store, Op.sock]

theorem burnUserByKey_within (key : Key) (pc : Burn) :
    (burnUserByKey key pc).Within [.files, .users] none := by
  cases pc with
  | purge pc => exact (purgeDocsIn_within _ pc).mono (by decide)
  | _ => simp [Action.Within, burnUserByKey, Op.store, Op.sock]

theorem periodicRaidTimeoutThread_within (pc : RaidTimeout) :
    (periodicRaidTimeoutThread pc).Within [.files, .users, .raid] none := by
  cases pc with
  | burn key todo pc => exact (burnUserByKey_within key pc).mono (by decide)
  | _ => simp [Action.Within, periodicRaidTimeoutThread, Op.store, Op.sock]

theorem firePeriodicPoliceRaid_within (pc : PeriodicRaid) :
    (firePeriodicPoliceRaid pc).Within [.raid] none := by
  cases pc <;> simp [Action.Within, firePeriodicPoliceRaid, Op.store, Op.sock]

theorem fireSelfPoliceRaid_within (sock : ℕ) (key : Key) (pc : SelfRaid) :
    (fireSelfPoliceRaid sock key pc).Within [.raid] (some sock) := by
  cases pc <;> simp [Action.Within, fireSelfPoliceRaid, Op.store, Op.sock]

theorem handleMinigameSubmit_within (sock : ℕ) (key : Key) (passcode : Bytes) (pc : Minigame) :
    (handleMinigameSubmit sock key passcode pc).Within [.files, .users, .raid] (some sock) := by
  cases pc with
  | burn serial pc => exact (burnUserByKey_within key pc).inside (by decide)
  | _ => simp [Action.Within, handleMinigameSubmit, Op.store, Op.sock]

theorem handleBuy_within (sock : ℕ) (key : Key) (docId : ℤ) (pc : Buy) :
    (handleBuy sock key docId pc).Within [.files, .users, .market] (some sock) := by
  cases pc <;> simp [Action.Within, handleBuy, Op.store, Op.sock]

theorem handleSell_within (sock : ℕ) (key : Key) (npcId : ℤ) (docIds : List ℤ) (pc : Sell) :
    (handleSell sock key npcId docIds pc).Within [.files, .users, .npcs] (some sock) := by
  cases pc <;> simp [Action.Within, handleSell, Op.store, Op.sock]

theorem handleDispose_within (sock : ℕ) (key : Key) (docId : ℤ) (pc : Dispose) :
    (handleDispose sock key docId pc).Within [.files] (some sock) := by
  cases pc <;> simp [Action.Within, handleDispose, Op.store, Op.sock]

theorem sandboxList_within (key : Key) (pc : SandboxList) :
    (sandboxList key pc).Within [] none := by
  cases pc <;> simp [Action.Within, sandboxList, Op.store, Op.sock]

theorem handleInventory_within (sock : ℕ) (key : Key) (pc : Inventory) :
    (handleInventory sock key pc).Within [] (some sock) := by
  cases pc with
  | list pc => exact (sandboxList_within key pc).inside (by simp)
  | _ => simp [Action.Within, handleInventory, Op.store, Op.sock]

theorem handleRumor_within (sock : ℕ) (key targetKey : Key) (pc : Rumoring) :
    (handleRumor sock key targetKey pc).Within [.users, .rumor] (some sock) := by
  cases pc with
  | inventory pc => exact (handleInventory_within sock key pc).mono (by simp)
  | _ => simp [Action.Within, handleRumor, Op.store, Op.sock]

theorem handleFakeRich_within (sock : ℕ) (key : Key) (pc : FakeRich) :
    (handleFakeRich sock key pc).Within [.users] (some sock) := by
  cases pc with
  | list rec pc => exact (sandboxList_within key pc).inside (by simp)
  | _ => simp [Action.Within, handleFakeRich, Op.store, Op.sock]

theorem checkBankruptcy_within (sock : ℕ) (key : Key) (pc : Bankruptcy) :
    (checkBankruptcy sock key pc).Within [.users] (some sock) := by
  cases pc <;> simp [Action.Within, checkBankruptcy, Op.store, Op.sock]

theorem eventSpawnMarket_within (pc : Spawn) :
    (eventSpawnMarket pc).Within [.files, .market, .docIds] none := by
  cases pc <;> simp [Action.Within, eventSpawnMarket, Op.store, Op.sock]

theorem eventDoNpcSequence_within (pc : NpcSequence) :
    (eventDoNpcSequence pc).Within [.npcs, .npcIds] none := by
  cases pc <;> simp [Action.Within, eventDoNpcSequence, Op.store, Op.sock]

theorem eventAgeNpcs_within (pc : AgeNpcs) : (eventAgeNpcs pc).Within [.npcs] none := by
  cases pc <;> simp [Action.Within, eventAgeNpcs, Op.store, Op.sock]

theorem eventAgeMarket_within (pc : AgeMarket) :
    (eventAgeMarket pc).Within [.files, .market] none := by
  cases pc <;> simp [Action.Within, eventAgeMarket, Op.store, Op.sock]

theorem firePublicLeak_within (pc : Leak) : (firePublicLeak pc).Within [.market] none := by
  cases pc <;> simp [Action.Within, firePublicLeak, Op.store, Op.sock]

theorem leakRecoveryThread_within (mask : Tags) (dur : ℕ) (pc : LeakRecovery) :
    (leakRecoveryThread mask dur pc).Within [.market] none := by
  cases pc <;> simp [Action.Within, leakRecoveryThread, Op.store, Op.sock]

theorem eventThreadFunc_within (v : EventVars) (pc : Event) :
    (eventThreadFunc v pc).Within [.files, .market, .npcs, .round, .raid, .docIds] none := by
  cases pc with
  | roundEnd pc => exact (fireRoundEndCountdown_within _ pc).mono (by decide)
  | ageNpcs pc => exact (eventAgeNpcs_within pc).mono (by decide)
  | ageMarket pc => exact (eventAgeMarket_within pc).mono (by decide)
  | raid pc => exact (firePeriodicPoliceRaid_within pc).mono (by decide)
  | leak pc => exact (firePublicLeak_within pc).mono (by decide)
  | spawn pc => exact (eventSpawnMarket_within pc).mono (by decide)
  | _ => simp [Action.Within, eventThreadFunc, Op.store, Op.sock]

theorem clientLogin_within (sock : ℕ) (pc : Login) :
    (clientLogin sock pc).Within [.files, .users, .clients] (some sock) := by
  cases pc <;> simp [Action.Within, clientLogin, Op.store, Op.sock]

theorem clientLoop_within (sock : ℕ) (key : Key) (pc : Command) :
    (clientLoop sock key pc).Within [.files, .users, .market, .npcs, .round, .rumor, .raid]
      (some sock) := by
  cases pc with
  | bankruptcy pc => exact (checkBankruptcy_within sock key pc).mono (by decide)
  | buy d pc => exact (handleBuy_within sock key d pc).mono (by decide)
  | sell n ds pc => exact (handleSell_within sock key n ds pc).mono (by decide)
  | dispose d pc => exact (handleDispose_within sock key d pc).mono (by decide)
  | inventory pc => exact (handleInventory_within sock key pc).mono (by decide)
  | rumor k pc => exact (handleRumor_within sock key k pc).mono (by decide)
  | payoff pc => exact (handlePayoff_within sock key pc).mono (by decide)
  | minigame code pc => exact (handleMinigameSubmit_within sock key code pc).mono (by decide)
  | selfRaid pc => exact (fireSelfPoliceRaid_within sock key pc).mono (by decide)
  | leak pc => exact (firePublicLeak_within pc).inside (by decide)
  | fakeRich pc => exact (handleFakeRich_within sock key pc).mono (by decide)
  | endround pc => exact (fireRoundEndCountdown_within _ pc).inside (by decide)
  | _ => simp [Action.Within, clientLoop, Op.store, Op.sock]

theorem clientDisconnect_within (sock : ℕ) (pc : Disconnect) :
    (clientDisconnect sock pc).Within [.clients, .openFds] (some sock) := by
  cases pc <;> simp [Action.Within, clientDisconnect, Op.store, Op.sock]

/-- The connection `main` has accepted and not yet handed on. -/
def Main.sock : Main → Option ℕ
  | .add sock | .reject sock => some sock
  | _ => none

theorem mainThread_within (pc : Main) :
    (mainThread pc).Within [.files, .market, .npcs, .clients, .openFds] pc.sock := by
  cases pc with
  | seed pc => exact (seedMarketAndNpc_within pc).inside (by decide)
  | _ => simp [Action.Within, mainThread, Op.store, Op.sock, Main.sock]

/-! ### Ordinary operations -/

/-- The packet neither greets a client nor tells it of a listing or a purchase. -/
def Packet.ordinary : Packet → Bool
  | .loginOk _ _ _ | .marketSpawn _ _ _ _ | .marketRemove _ | .buyOk _ _ _ _ => false
  | _ => true

/-- The operation leaves listings, orders and the files for sale where they are, resets nothing,
opens no connection, and starts neither the event thread nor the timer of a raid. -/
def Op.ordinary : Op → Bool
  | .marketTake _ | .marketAdd _ _ _ _ | .marketDespawnAged | .marketInit | .npcTake _
  | .rename _ _ _ | .unlink .master _ | .unlink (.entry _) _ | .writeMaster _
  | .userdbUpdateIndeterminate | .userdbResetRound _ | .accept | .pthreadCreate .event
  | .pthreadCreate (.raidTimeout _) => false
  | .packetSend _ pkt | .broadcast pkt | .unicastToKey _ pkt => pkt.ordinary
  | _ => true

section Ordinary

variable {sock : ℕ} {key : Key}

theorem purgeDocsIn_ordinary (key : Key) (pc : Purge) :
    (purgeDocsIn (.user key) pc).op.ordinary = true := by
  cases pc <;> rfl

theorem burnUserByKey_ordinary (key : Key) (pc : Burn) :
    (burnUserByKey key pc).op.ordinary = true := by
  cases pc with
  | purge q => exact purgeDocsIn_ordinary key q
  | _ => rfl

theorem periodicRaidTimeoutThread_ordinary (pc : RaidTimeout) :
    (periodicRaidTimeoutThread pc).op.ordinary = true := by
  cases pc with
  | burn key todo q => exact burnUserByKey_ordinary key q
  | _ => rfl

theorem fireRoundEndCountdown_ordinary (text : Bytes) (pc : RoundEnd) :
    (fireRoundEndCountdown text pc).op.ordinary = true := by
  cases pc <;> rfl

theorem firePublicLeak_ordinary (pc : Leak) : (firePublicLeak pc).op.ordinary = true := by
  cases pc <;> rfl

theorem sandboxList_ordinary (pc : SandboxList) : (sandboxList key pc).op.ordinary = true := by
  cases pc <;> rfl

theorem handleInventory_ordinary (pc : Inventory) :
    (handleInventory sock key pc).op.ordinary = true := by
  cases pc with
  | list q => exact sandboxList_ordinary q
  | _ => rfl

/-- The commands other than a trade and a raid. -/
def Command.ordinary : Command → Bool
  | .buy _ _ | .sell _ _ _ | .selfRaid _ => false
  | _ => true

theorem clientLoop_ordinary {pc : Command} (h : pc.ordinary = true) :
    (clientLoop sock key pc).op.ordinary = true := by
  cases pc with
  | buy d q | sell n ds q | selfRaid q => cases h
  | bankruptcy q | dispose d q => cases q <;> rfl
  | inventory q => exact handleInventory_ordinary q
  | rumor k q =>
    cases q with
    | inventory q => exact handleInventory_ordinary q
    | _ => rfl
  | payoff q =>
    cases q with
    | purge e rec off q => exact purgeDocsIn_ordinary key q
    | roundEnd q => exact fireRoundEndCountdown_ordinary _ q
    | _ => rfl
  | minigame code q =>
    cases q with
    | burn serial q => exact burnUserByKey_ordinary key q
    | _ => rfl
  | leak q => exact firePublicLeak_ordinary q
  | fakeRich q =>
    cases q with
    | list rec q => exact sandboxList_ordinary q
    | _ => rfl
  | endround q => exact fireRoundEndCountdown_ordinary _ q
  | _ => rfl

/-- What the event thread does besides its listings and its raid. -/
def Event.ordinary : Event → Bool
  | .spawn _ | .ageMarket _ | .raid _ => false
  | _ => true

theorem eventThreadFunc_ordinary {v : EventVars} {pc : Event} (h : pc.ordinary = true) :
    (eventThreadFunc v pc).op.ordinary = true := by
  cases pc with
  | spawn q | ageMarket q | raid q => cases h
  | roundEnd q => exact fireRoundEndCountdown_ordinary _ q
  | leak q => exact firePublicLeak_ordinary q
  | ageNpcs q => cases q <;> rfl
  | _ => rfl

end Ordinary

/-! ### What does not fail -/

section

variable {s s' : Shared} {c : Choice} {key : Key} {sock : ℕ}

theorem markNext_ne_fail {marked todo : List InvenItem} {code : ErrorCode} {reason : Bytes} :
    SandboxList.markNext marked todo ≠ .fail code reason := by
  cases todo <;> exact nofun

theorem readNext_ne_fail {items : List InvenItem} {todo : List ℤ} {code : ErrorCode}
    {reason : Bytes} : SandboxList.readNext items todo ≠ .fail code reason := by
  cases todo with
  | nil => exact markNext_ne_fail
  | cons d todo =>
    simp only [SandboxList.readNext]
    split_ifs
    · exact nofun
    · exact markNext_ne_fail

/-- Listing a sandbox does not fail. -/
theorem sandboxList_ne_fail {q : SandboxList} {code : ErrorCode} {reason : Bytes} :
    ¬ (sandboxList key q).Steps s c s' (.fail code reason) := by
  rintro ⟨r, -, hn⟩
  cases q with
  | opendir =>
    cases r with
    | none => cases hn
    | some ids => exact readNext_ne_fail hn.symm
  | read d todo items => cases r <;> exact readNext_ne_fail hn.symm
  | mark item todo marked => exact markNext_ne_fail hn.symm

/-- An inventory goes on to its answer. -/
theorem handleInventory_next {q : Inventory} {n : Next Inventory}
    (h : (handleInventory sock key q).Steps s c s' n) :
    (∃ q', n = .cont q' ∧ ∀ items money, q ≠ .send items money) ∨
      (n = .ret () ∧ ∃ items money, q = .send items money) := by
  cases q with
  | list q =>
    obtain ⟨m, hm, rfl⟩ := Action.steps_map.1 h
    rcases m with q' | items | ⟨code, reason⟩
    · exact .inl ⟨_, rfl, nofun⟩
    · exact .inl ⟨_, rfl, nofun⟩
    · exact absurd hm sandboxList_ne_fail
  | lookup items =>
    obtain ⟨r, -, rfl⟩ := h
    cases r <;> exact .inl ⟨_, rfl, nofun⟩
  | send items money =>
    obtain ⟨r, -, rfl⟩ := h
    exact .inr ⟨rfl, items, money, rfl⟩

end

end UnderFlow
