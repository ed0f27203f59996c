import UnderFlow.LTS.Fair
import UnderFlow.Server.Effect

/-!
# Programs come to their ends

Every loop of a handler goes over a list that it has read before, and nothing is tried again.  So
whatever the operations of a thread return, a handler comes back to its caller.

* `Ends prog pc` : from `pc`, the program returns after finitely many operations.
* `Ends.nest` : a program that is run inside another one.
* `ends_buy`, `ends_sell`, … : one theorem for each program of the server.
* `comes_awaits` : every thread but the event thread comes to where it waits for the outside.
* `comes_cap` : the event thread comes to its next tick.
-/

namespace UnderFlow

/-! ### Programs -/

section Programs

variable {α β α' β' : Type} {prog : α → Action (Next α β)} {outer : α' → Action (Next α' β')}
  {pc : α} {n : Next α β} {Q : Next α' β' → Prop}

/-- A step of a program, whatever its operation returns. -/
def Goes (prog : α → Action (Next α β)) (n n' : Next α β) : Prop :=
  ∃ pc r, n = .cont pc ∧ n' = (prog pc).next r

/-- The program has returned. -/
def Next.Done (n : Next α β) : Prop := ∀ pc, n ≠ .cont pc

/-- The program returns after finitely many operations. -/
abbrev Returns (prog : α → Action (Next α β)) (n : Next α β) : Prop := Comes (Goes prog) Next.Done n

/-- The program comes to its end when it runs alone from the point. -/
def Ends (prog : α → Action (Next α β)) (pc : α) : Prop := Returns prog (.cont pc)

@[simp] theorem returns_ret (b : β) : Returns prog (.ret b) := .here (by rintro _ ⟨⟩)

@[simp] theorem returns_fail (code : ErrorCode) (reason : Bytes) :
    Returns prog (.fail code reason) := .here (by rintro _ ⟨⟩)

@[simp] theorem returns_cont : Returns prog (.cont pc) ↔ Ends prog pc := Iff.rfl

@[simp] theorem returns_ite {P : Prop} [Decidable P] {n n' : Next α β} :
    Returns prog (if P then n else n') ↔ (P → Returns prog n) ∧ (¬ P → Returns prog n') := by
  split_ifs with hP <;> simp [hP]

theorem comes_of_next (h : ∀ r, Comes (Goes outer) Q ((outer x).next r)) :
    Comes (Goes outer) Q (.cont x) := by
  refine .step ?_
  rintro _ ⟨_, r, ⟨⟩, rfl⟩
  exact h r

theorem Ends.of (h : ∀ r, Returns prog ((prog pc).next r)) : Ends prog pc := comes_of_next h

/-- **A program inside another one.** -/
theorem Ends.nest {f : α → α'} {g : Next α β → Next α' β'} (h : Ends prog pc)
    (hprog : ∀ pc, outer (f pc) = (prog pc).map g) (hcont : ∀ pc, g (.cont pc) = .cont (f pc))
    (hdone : ∀ n : Next α β, n.Done → Comes (Goes outer) Q (g n)) :
    Comes (Goes outer) Q (.cont (f pc)) := by
  rw [← hcont]
  refine Comes.map h hdone fun n n' hn hstep => ?_
  rcases n with pc | b | ⟨code, reason⟩
  · obtain ⟨_, r, heq, rfl⟩ := hstep
    rw [hcont] at heq
    cases heq
    revert r
    rw [hprog]
    exact fun r => ⟨(prog pc).next r, ⟨pc, r, rfl, rfl⟩, rfl⟩
  · exact absurd (by rintro _ ⟨⟩) hn
  · exact absurd (by rintro _ ⟨⟩) hn

theorem Ends.within {f : α → α'} {g : Next α β → Next α' β'} (h : Ends prog pc)
    (hprog : ∀ pc, outer (f pc) = (prog pc).map g) (hcont : ∀ pc, g (.cont pc) = .cont (f pc))
    (hdone : ∀ n : Next α β, n.Done → Returns outer (g n)) : Ends outer (f pc) :=
  h.nest hprog hcont hdone

end Programs

/-! ### The handlers

Each proof goes backwards from the last point of the program. -/

section Handlers

variable {sock : ℕ} {key : Key}

theorem ends_buy (docId : ℤ) (pc : Buy) : Ends (handleBuy sock key docId) pc := by
  have announce : Ends (handleBuy sock key docId) .announce := .of fun _ => returns_ret _
  have reply slot rec : Ends (handleBuy sock key docId) (.reply slot rec) := .of fun _ => announce
  have charge slot rec off : Ends (handleBuy sock key docId) (.charge slot rec off) :=
    .of fun _ => reply _ _
  have rollback slot : Ends (handleBuy sock key docId) (.rollback slot) :=
    .of fun _ => returns_fail _ _
  have move slot rec off : Ends (handleBuy sock key docId) (.move slot rec off) :=
    .of fun _ => by simp [handleBuy, charge, rollback]
  have stat slot rec off : Ends (handleBuy sock key docId) (.stat slot rec off) :=
    .of fun _ => by simp [handleBuy, move, rollback]
  have take rec off : Ends (handleBuy sock key docId) (.take rec off) :=
    .of fun r => by rcases r with (_ | _) | _ <;> simp [handleBuy, stat]
  have lookup slot : Ends (handleBuy sock key docId) (.lookup slot) :=
    .of fun r => by cases r <;> simp [handleBuy, take]
  have count slot : Ends (handleBuy sock key docId) (.count slot) :=
    .of fun r => by cases r <;> simp [handleBuy, lookup]
  have find : Ends (handleBuy sock key docId) .find :=
    .of fun r => by cases r <;> simp [handleBuy, count]
  cases pc <;> solve_by_elim

theorem ends_sell (npcId : ℤ) (docIds : List ℤ) (pc : Sell) :
    Ends (handleSell sock key npcId docIds) pc := by
  have announce : Ends (handleSell sock key npcId docIds) .announce := .of fun _ => returns_ret _
  have reply npc sold rec old : Ends (handleSell sock key npcId docIds) (.reply npc sold rec old) :=
    .of fun _ => announce
  have credit npc sold rec off : Ends (handleSell sock key npcId docIds) (.credit npc sold rec off) :=
    .of fun _ => reply _ _ _ _
  have creditIndeterminate npc sold rec :
      Ends (handleSell sock key npcId docIds) (.creditIndeterminate npc sold rec) :=
    .of fun _ => reply _ _ _ _
  have lookup npc sold : Ends (handleSell sock key npcId docIds) (.lookup npc sold) :=
    .of fun r => by cases r <;> simp [handleSell, credit, creditIndeterminate]
  -- the documents to remove
  have disposeNext npc todo : ∀ sold,
      Ends (handleSell sock key npcId docIds) (Sell.disposeNext npc sold todo) := by
    induction todo with
    | nil => exact lookup npc
    | cons d todo ih => exact fun sold => .of fun _ => ih _
  have take : Ends (handleSell sock key npcId docIds) .take :=
    .of fun r => by cases r <;> simp [handleSell, disposeNext]
  -- the documents to check, given that the rest of them comes to an end
  have frozen npc df todo
      (rest : ∀ tags, Returns (handleSell sock key npcId docIds) (Sell.check npc tags todo)) tags :
      Ends (handleSell sock key npcId docIds) (.frozen npc df todo tags) :=
    .of fun _ => by simp [handleSell, rest]
  have read npc d todo
      (rest : ∀ tags, Returns (handleSell sock key npcId docIds) (Sell.check npc tags todo)) tags :
      Ends (handleSell sock key npcId docIds) (.read npc d todo tags) :=
    .of fun r => by cases r <;> simp [handleSell, frozen, rest]
  have has npc d todo
      (rest : ∀ tags, Returns (handleSell sock key npcId docIds) (Sell.check npc tags todo)) tags :
      Ends (handleSell sock key npcId docIds) (.has npc d todo tags) :=
    .of fun _ => by simp [handleSell, read, rest]
  have check npc todo : ∀ tags,
      Returns (handleSell sock key npcId docIds) (Sell.check npc tags todo) := by
    induction todo with
    | nil => simp [Sell.check, take]
    | cons d todo ih => exact has npc d todo ih
  cases pc with
  | findNpc => exact .of fun r => by cases r <;> simp [handleSell, check]
  | has npc d todo tags => exact has npc d todo (check npc todo) tags
  | read npc d todo tags => exact read npc d todo (check npc todo) tags
  | frozen npc df todo tags => exact frozen npc df todo (check npc todo) tags
  | dispose npc d todo sold => exact disposeNext npc (d :: todo) sold
  | _ => solve_by_elim

theorem ends_dispose (docId : ℤ) (pc : Dispose) : Ends (handleDispose sock key docId) pc := by
  have reply : Ends (handleDispose sock key docId) .reply := .of fun _ => returns_ret _
  have unlink : Ends (handleDispose sock key docId) .unlink :=
    .of fun _ => by simp [handleDispose, reply]
  have has : Ends (handleDispose sock key docId) .has := .of fun _ => by simp [handleDispose, unlink]
  cases pc <;> assumption

theorem ends_sandboxList (key : Key) (pc : SandboxList) : Ends (sandboxList key) pc := by
  have markNext todo : ∀ marked, Returns (sandboxList key) (SandboxList.markNext marked todo) := by
    induction todo with
    | nil => exact fun _ => returns_ret _
    | cons item todo ih => exact fun marked => Ends.of fun _ => ih _
  have readNext todo : ∀ items, Returns (sandboxList key) (SandboxList.readNext items todo) := by
    induction todo with
    | nil => exact fun items => markNext items []
    | cons d todo ih =>
      have read items : Ends (sandboxList key) (.read d todo items) :=
        .of fun r => by cases r <;> exact ih _
      exact fun items => by simp [SandboxList.readNext, read, markNext]
  cases pc with
  | opendir => exact .of fun r => by cases r <;> simp [sandboxList, readNext]
  | read d todo items => exact .of fun r => by cases r <;> exact readNext todo _
  | mark item todo marked => exact .of fun _ => markNext todo _

theorem ends_inventory (sock : ℕ) (key : Key) (pc : Inventory) :
    Ends (handleInventory sock key) pc := by
  have send items money : Ends (handleInventory sock key) (.send items money) :=
    .of fun _ => returns_ret _
  have lookup items : Ends (handleInventory sock key) (.lookup items) :=
    .of fun r => by cases r <;> simp [handleInventory, send]
  cases pc with
  | list pc =>
    refine (ends_sandboxList key pc).within (fun _ => by rw [handleInventory]) (fun _ => rfl)
      fun n hn => ?_
    rcases n with pc | items | ⟨code, reason⟩
    · exact absurd rfl (hn pc)
    · exact lookup items
    · exact returns_fail _ _
  | lookup items => exact lookup items
  | send items money => exact send items money

theorem ends_rumor (targetKey : Key) (pc : Rumoring) : Ends (handleRumor sock key targetKey) pc := by
  have inventory pc : Ends (handleRumor sock key targetKey) (.inventory pc) := by
    refine (ends_inventory sock key pc).within (fun _ => by rw [handleRumor]) (fun _ => rfl)
      fun n hn => ?_
    rcases n with pc | _ | ⟨code, reason⟩
    · exact absurd rfl (hn pc)
    · exact returns_ret _
    · exact returns_fail _ _
  have glitch : Ends (handleRumor sock key targetKey) .glitch := .of fun _ => inventory _
  have commit now : Ends (handleRumor sock key targetKey) (.commit now) := .of fun _ => glitch
  have update now rec off : Ends (handleRumor sock key targetKey) (.update now rec off) :=
    .of fun _ => commit now
  have leave code reason : Ends (handleRumor sock key targetKey) (.leave code reason) :=
    .of fun _ => returns_fail _ _
  have lookup now : Ends (handleRumor sock key targetKey) (.lookup now) :=
    .of fun r => by cases r <;> simp [handleRumor, leave, update]
  have enter : Ends (handleRumor sock key targetKey) .enter :=
    .of fun r => by cases r <;> simp [handleRumor, lookup]
  cases pc <;> solve_by_elim

theorem ends_fakeRich (pc : FakeRich) : Ends (handleFakeRich sock key) pc := by
  have note rec : Ends (handleFakeRich sock key) (.note rec) := .of fun _ => returns_ret _
  have send rec items : Ends (handleFakeRich sock key) (.send rec items) := .of fun _ => note rec
  have list rec pc : Ends (handleFakeRich sock key) (.list rec pc) := by
    refine (ends_sandboxList key pc).within (fun _ => by rw [handleFakeRich]) (fun _ => rfl)
      fun n hn => ?_
    rcases n with pc | items | ⟨code, reason⟩
    · exact absurd rfl (hn pc)
    · exact send rec items
    · exact returns_fail _ _
  have update rec off : Ends (handleFakeRich sock key) (.update rec off) := .of fun _ => list _ _
  have goal rec off : Ends (handleFakeRich sock key) (.goal rec off) := .of fun _ => update _ _
  have lookup : Ends (handleFakeRich sock key) .lookup :=
    .of fun r => by cases r <;> simp [handleFakeRich, goal]
  cases pc <;> solve_by_elim

theorem ends_bankruptcy (pc : Bankruptcy) : Ends (checkBankruptcy sock key) pc := by
  have send : Ends (checkBankruptcy sock key) .send := .of fun _ => returns_ret _
  have burn off : Ends (checkBankruptcy sock key) (.burn off) := .of fun _ => send
  have count off : Ends (checkBankruptcy sock key) (.count off) :=
    .of fun r => by cases r <;> simp [checkBankruptcy, burn]
  have lookup : Ends (checkBankruptcy sock key) .lookup :=
    .of fun r => by cases r <;> simp [checkBankruptcy, count]
  cases pc <;> solve_by_elim

/-! ### Rounds -/

theorem ends_purge (f : Folder) (pc : Purge) : Ends (purgeDocsIn f) pc := by
  have unlinkNext todo : Returns (purgeDocsIn f) (Purge.unlinkNext todo) := by
    induction todo with
    | nil => exact returns_ret _
    | cons d todo ih => exact Ends.of fun _ => ih
  cases pc with
  | opendir => exact .of fun r => by cases r <;> simp [purgeDocsIn, unlinkNext]
  | unlink d todo => exact .of fun _ => unlinkNext todo

theorem ends_seed (pc : Seed) : Ends seedMarketAndNpc pc := by
  have npcNext todo : Returns seedMarketAndNpc (Seed.npcNext todo) := by
    induction todo with
    | nil => exact returns_ret _
    | cons n todo ih => exact Ends.of fun _ => ih
  have docNext todo : Returns seedMarketAndNpc (Seed.docNext todo) := by
    induction todo with
    | nil => exact npcNext seedNpcs
    | cons doc todo ih => exact Ends.of fun _ => Ends.of fun _ => ih
  cases pc with
  | write doc todo => exact .of fun _ => Ends.of fun _ => docNext todo
  | add doc todo => exact .of fun _ => docNext todo
  | npc n todo => exact .of fun _ => npcNext todo

theorem ends_reset (pc : Reset) : Ends triggerRoundReset pc := by
  have npcSendNext todo : Returns triggerRoundReset (Reset.npcSendNext todo) := by
    induction todo with
    | nil => exact returns_ret _
    | cons n todo ih => exact Ends.of fun _ => ih
  have npcSnapshot : Ends triggerRoundReset .npcSnapshot := .of fun _ => npcSendNext _
  have marketSendNext todo : Ends triggerRoundReset (Reset.marketSendNext todo) := by
    induction todo with
    | nil => exact npcSnapshot
    | cons slot todo ih => exact .of fun _ => ih
  have marketSnapshot : Ends triggerRoundReset .marketSnapshot := .of fun _ => marketSendNext _
  have marker : Ends triggerRoundReset .marker := .of fun _ => marketSnapshot
  have seed pc : Ends triggerRoundReset (.seed pc) := by
    refine (ends_seed pc).within (fun _ => by rw [triggerRoundReset]) (fun _ => rfl) fun n hn => ?_
    cases n with
    | cont pc => exact absurd rfl (hn pc)
    | _ => exact marker
  have rumor : Ends triggerRoundReset .rumor := .of fun _ => seed _
  have round : Ends triggerRoundReset .round := .of fun _ => rumor
  have npcs : Ends triggerRoundReset .npcs := .of fun _ => round
  have market : Ends triggerRoundReset .market := .of fun _ => npcs
  have records : Ends triggerRoundReset .records := .of fun _ => market
  -- the sandboxes to purge, given that the rest of them comes to an end
  have userPurge name todo (rest : Ends triggerRoundReset (Reset.userNext todo)) pc :
      Ends triggerRoundReset (.userPurge name todo pc) := by
    refine (ends_purge (.entry name) pc).within (fun _ => by rw [triggerRoundReset]) (fun _ => rfl)
      fun n hn => ?_
    cases n with
    | cont pc => exact absurd rfl (hn pc)
    | _ => exact rest
  have userNext todo : Ends triggerRoundReset (Reset.userNext todo) := by
    induction todo with
    | nil => exact records
    | cons name todo ih => exact userPurge name todo ih _
  have users : Ends triggerRoundReset .users := .of fun _ => userNext _
  have masterPurge pc : Ends triggerRoundReset (.masterPurge pc) := by
    refine (ends_purge .master pc).within (fun _ => by rw [triggerRoundReset]) (fun _ => rfl)
      fun n hn => ?_
    cases n with
    | cont pc => exact absurd rfl (hn pc)
    | _ => exact users
  cases pc with
  | userPurge name todo pc => exact userPurge name todo (userNext todo) pc
  | marketSend slot todo => exact marketSendNext (slot :: todo)
  | npcSend npc todo => exact npcSendNext (npc :: todo)
  | _ => solve_by_elim

theorem ends_roundEndTimer (pc : RoundEndTimer) : Ends roundEndTimerThread pc := by
  have reset pc : Ends roundEndTimerThread (.reset pc) := by
    refine (ends_reset pc).within (fun _ => by rw [roundEndTimerThread]) (fun _ => rfl)
      fun n hn => ?_
    rcases n with pc | _ | ⟨code, reason⟩
    · exact absurd rfl (hn pc)
    · exact returns_ret _
    · exact returns_fail _ _
  have check : Ends roundEndTimerThread .check :=
    .of fun _ => by simp [roundEndTimerThread, reset]
  have sleep wake : Ends roundEndTimerThread (.sleep wake) := .of fun _ => check
  have start : Ends roundEndTimerThread .start := .of fun _ => sleep _
  cases pc <;> solve_by_elim

theorem ends_roundEnd (text : Bytes) (pc : RoundEnd) : Ends (fireRoundEndCountdown text) pc := by
  have release : Ends (fireRoundEndCountdown text) .release := .of fun _ => returns_ret _
  have timer : Ends (fireRoundEndCountdown text) .timer :=
    .of fun _ => by simp [fireRoundEndCountdown, release]
  have hint : Ends (fireRoundEndCountdown text) .hint := .of fun _ => timer
  have scoreboard escaped rank : Ends (fireRoundEndCountdown text) (.scoreboard escaped rank) :=
    .of fun _ => hint
  -- a key to look up, given that the rest of them comes to an end
  have lookup escaped key todo
      (rest : ∀ rank, Ends (fireRoundEndCountdown text) (RoundEnd.lookupNext escaped rank todo))
      rank : Ends (fireRoundEndCountdown text) (.lookup escaped key todo rank) :=
    .of fun r => by cases r <;> simp [fireRoundEndCountdown, rest]
  have lookupNext escaped todo : ∀ rank,
      Ends (fireRoundEndCountdown text) (RoundEnd.lookupNext escaped rank todo) := by
    induction todo with
    | nil => exact scoreboard escaped
    | cons key todo ih =>
      intro rank
      simp only [RoundEnd.lookupNext]
      split_ifs
      · exact ih rank
      · exact lookup escaped key todo ih rank
  have keys escaped : Ends (fireRoundEndCountdown text) (.keys escaped) :=
    .of fun _ => lookupNext _ _ _
  have log : Ends (fireRoundEndCountdown text) .log := .of fun _ => keys _
  have claim : Ends (fireRoundEndCountdown text) .claim :=
    .of fun _ => by simp [fireRoundEndCountdown, log]
  cases pc with
  | lookup escaped key todo rank => exact lookup escaped key todo (lookupNext escaped todo) rank
  | _ => solve_by_elim

theorem ends_payoff (pc : Payoff) : Ends (handlePayoff sock key) pc := by
  have roundEnd pc : Ends (handlePayoff sock key) (.roundEnd pc) := by
    refine (ends_roundEnd _ pc).within (fun _ => by rw [handlePayoff]) (fun _ => rfl)
      fun n hn => ?_
    rcases n with pc | _ | ⟨code, reason⟩
    · exact absurd rfl (hn pc)
    · exact returns_ret _
    · exact returns_fail _ _
  have goalUpdate e : Ends (handlePayoff sock key) (.goalUpdate e) :=
    .of fun _ => by simp [handlePayoff, roundEnd]
  have announce e : Ends (handlePayoff sock key) (.announce e) := .of fun _ => goalUpdate e
  have victory e : Ends (handlePayoff sock key) (.victory e) := .of fun _ => announce e
  have update e rec off : Ends (handlePayoff sock key) (.update e rec off) := .of fun _ => victory e
  have purge e rec off pc : Ends (handlePayoff sock key) (.purge e rec off pc) := by
    refine (ends_purge (.user key) pc).within (fun _ => by rw [handlePayoff]) (fun _ => rfl)
      fun n hn => ?_
    cases n with
    | cont pc => exact absurd rfl (hn pc)
    | _ => exact update e rec off
  have commit rec off : Ends (handlePayoff sock key) (.commit rec off) :=
    .of fun r => by cases r <;> simp [handlePayoff, purge]
  have lookup : Ends (handlePayoff sock key) .lookup :=
    .of fun r => by cases r <;> simp [handlePayoff, commit]
  cases pc <;> solve_by_elim

/-! ### Raids -/

theorem ends_burn (key : Key) (pc : Burn) : Ends (burnUserByKey key) pc := by
  have notify : Ends (burnUserByKey key) .notify := .of fun _ => returns_ret _
  have purge pc : Ends (burnUserByKey key) (.purge pc) := by
    refine (ends_purge (.user key) pc).within (fun _ => by rw [burnUserByKey]) (fun _ => rfl)
      fun n hn => ?_
    cases n with
    | cont pc => exact absurd rfl (hn pc)
    | _ => exact notify
  have burn off : Ends (burnUserByKey key) (.burn off) := .of fun _ => purge _
  have lookup : Ends (burnUserByKey key) .lookup :=
    .of fun r => by cases r <;> simp [burnUserByKey, purge, burn]
  cases pc <;> solve_by_elim

theorem ends_raidTimeout (pc : RaidTimeout) : Ends periodicRaidTimeoutThread pc := by
  -- a victim, given that the rest of them comes to an end
  have burn key todo (rest : Returns periodicRaidTimeoutThread (RaidTimeout.burnNext todo)) pc :
      Ends periodicRaidTimeoutThread (.burn key todo pc) := by
    refine (ends_burn key pc).within (fun _ => by rw [periodicRaidTimeoutThread]) (fun _ => rfl)
      fun n hn => ?_
    cases n with
    | cont pc => exact absurd rfl (hn pc)
    | _ => exact rest
  have burnNext todo : Returns periodicRaidTimeoutThread (RaidTimeout.burnNext todo) := by
    induction todo with
    | nil => exact returns_ret _
    | cons key todo ih => exact burn key todo ih _
  have snapshot : Ends periodicRaidTimeoutThread .snapshot := .of fun _ => burnNext _
  have sleep wake : Ends periodicRaidTimeoutThread (.sleep wake) := .of fun _ => snapshot
  have start : Ends periodicRaidTimeoutThread .start := .of fun _ => sleep _
  cases pc with
  | burn key todo pc => exact burn key todo (burnNext todo) pc
  | _ => solve_by_elim

theorem ends_periodicRaid (pc : PeriodicRaid) : Ends firePeriodicPoliceRaid pc := by
  have rollback : Ends firePeriodicPoliceRaid .rollback := .of fun _ => returns_ret _
  have timer serial : Ends firePeriodicPoliceRaid (.timer serial) :=
    .of fun _ => by simp [firePeriodicPoliceRaid, rollback]
  have hint code serial : Ends firePeriodicPoliceRaid (.hint code serial) := .of fun _ => timer _
  have announce code serial : Ends firePeriodicPoliceRaid (.announce code serial) :=
    .of fun _ => hint _ _
  have cancel : Ends firePeriodicPoliceRaid .cancel := .of fun _ => returns_ret _
  have launch : Ends firePeriodicPoliceRaid .launch :=
    .of fun r => by cases r <;> simp [firePeriodicPoliceRaid, cancel, announce]
  cases pc <;> solve_by_elim

theorem ends_selfRaid (pc : SelfRaid) : Ends (fireSelfPoliceRaid sock key) pc := by
  have rollback : Ends (fireSelfPoliceRaid sock key) .rollback := .of fun _ => returns_fail _ _
  have timer serial : Ends (fireSelfPoliceRaid sock key) (.timer serial) :=
    .of fun _ => by simp [fireSelfPoliceRaid, rollback]
  have announce code serial : Ends (fireSelfPoliceRaid sock key) (.announce code serial) :=
    .of fun _ => timer _
  have launch : Ends (fireSelfPoliceRaid sock key) .launch :=
    .of fun r => by cases r <;> simp [fireSelfPoliceRaid, announce]
  cases pc <;> solve_by_elim

theorem ends_minigame (passcode : Bytes) (pc : Minigame) :
    Ends (handleMinigameSubmit sock key passcode) pc := by
  have burn serial pc : Ends (handleMinigameSubmit sock key passcode) (.burn serial pc) := by
    refine (ends_burn key pc).within (fun _ => by rw [handleMinigameSubmit]) (fun _ => rfl)
      fun n hn => ?_
    rcases n with pc | _ | ⟨code, reason⟩
    · exact absurd rfl (hn pc)
    · exact returns_ret _
    · exact returns_fail _ _
  have clearWrong i serial : Ends (handleMinigameSubmit sock key passcode) (.clearWrong i serial) :=
    .of fun _ => burn _ _
  have reply serial : Ends (handleMinigameSubmit sock key passcode) (.reply serial) :=
    .of fun _ => returns_ret _
  have clearOk i serial : Ends (handleMinigameSubmit sock key passcode) (.clearOk i serial) :=
    .of fun _ => reply _
  have lookup : Ends (handleMinigameSubmit sock key passcode) .lookup :=
    .of fun r => by cases r <;> simp [handleMinigameSubmit, clearOk, clearWrong]
  cases pc <;> solve_by_elim

/-! ### Events -/

theorem ends_spawn (pc : Spawn) : Ends eventSpawnMarket pc := by
  have announce doc : Ends eventSpawnMarket (.announce doc) := .of fun _ => returns_ret _
  have remove doc : Ends eventSpawnMarket (.remove doc) := .of fun _ => returns_ret _
  have add doc : Ends eventSpawnMarket (.add doc) :=
    .of fun _ => by simp [eventSpawnMarket, announce, remove]
  have write doc : Ends eventSpawnMarket (.write doc) := .of fun _ => by simp [eventSpawnMarket, add]
  have name tags d price : Ends eventSpawnMarket (.name tags d price) := .of fun _ => write _
  have price tags d : Ends eventSpawnMarket (.price tags d) := .of fun _ => name _ _ _
  have docId tags : Ends eventSpawnMarket (.docId tags) := .of fun _ => price _ _
  have tags frozen : Ends eventSpawnMarket (.tags frozen) :=
    .of fun _ => by simp [eventSpawnMarket, docId]
  have mask : Ends eventSpawnMarket .mask := .of fun _ => tags _
  have full : Ends eventSpawnMarket .full := .of fun _ => by simp [eventSpawnMarket, mask]
  cases pc <;> solve_by_elim

theorem ends_npcSequence (pc : NpcSequence) : Ends eventDoNpcSequence pc := by
  have announce tags n bounty : Ends eventDoNpcSequence (.announce tags n bounty) :=
    .of fun _ => returns_ret _
  have add tags n bounty : Ends eventDoNpcSequence (.add tags n bounty) :=
    .of fun _ => by simp [eventDoNpcSequence, announce]
  have bounty tags n : Ends eventDoNpcSequence (.bounty tags n) := .of fun _ => add _ _ _
  have npcId tags : Ends eventDoNpcSequence (.npcId tags) := .of fun _ => bounty _ _
  have sleep tags wake : Ends eventDoNpcSequence (.sleep tags wake) := .of fun _ => npcId _
  have start tags : Ends eventDoNpcSequence (.start tags) := .of fun _ => sleep _ _
  have hintSend tags text : Ends eventDoNpcSequence (.hintSend tags text) := .of fun _ => start _
  have hint tags : Ends eventDoNpcSequence (.hint tags) := .of fun _ => hintSend _ _
  have tags frozen : Ends eventDoNpcSequence (.tags frozen) :=
    .of fun _ => by simp [eventDoNpcSequence, hint]
  have mask : Ends eventDoNpcSequence .mask := .of fun _ => tags _
  have full : Ends eventDoNpcSequence .full := .of fun _ => by simp [eventDoNpcSequence, mask]
  cases pc <;> solve_by_elim

theorem ends_ageNpcs (pc : AgeNpcs) : Ends eventAgeNpcs pc := by
  have announceNext todo : Returns eventAgeNpcs (AgeNpcs.announceNext todo) := by
    induction todo with
    | nil => exact returns_ret _
    | cons n todo ih => exact Ends.of fun _ => ih
  cases pc with
  | despawn => exact .of fun _ => announceNext _
  | announce n todo => exact .of fun _ => announceNext todo

theorem ends_ageMarket (pc : AgeMarket) : Ends eventAgeMarket pc := by
  have removeNext todo : Returns eventAgeMarket (AgeMarket.removeNext todo) := by
    induction todo with
    | nil => exact returns_ret _
    | cons d todo ih => exact Ends.of fun _ => Ends.of fun _ => ih
  cases pc with
  | despawn => exact .of fun _ => removeNext _
  | remove d todo => exact .of fun _ => Ends.of fun _ => removeNext todo
  | announce d todo => exact .of fun _ => removeNext todo

theorem ends_publicLeak (pc : Leak) : Ends firePublicLeak pc := by
  have unfreeze mask : Ends firePublicLeak (.unfreeze mask) := .of fun _ => returns_ret _
  have thread mask dur : Ends firePublicLeak (.thread mask dur) :=
    .of fun _ => by simp [firePublicLeak, unfreeze]
  have malloc mask dur : Ends firePublicLeak (.malloc mask dur) :=
    .of fun _ => by simp [firePublicLeak, thread, unfreeze]
  have announce mask dur text : Ends firePublicLeak (.announce mask dur text) :=
    .of fun _ => malloc _ _
  have headline mask dur : Ends firePublicLeak (.headline mask dur) := .of fun _ => announce _ _ _
  have freeze mask dur : Ends firePublicLeak (.freeze mask dur) := .of fun _ => headline _ _
  have pick avail : Ends firePublicLeak (.pick avail) := .of fun _ => freeze _ _
  have present frozen : Ends firePublicLeak (.present frozen) := .of fun _ => by
    simp only [firePublicLeak]
    split
    · exact returns_ret _
    · exact pick _
  have mask : Ends firePublicLeak .mask := .of fun _ => present _
  cases pc <;> solve_by_elim

theorem ends_leakRecovery (mask : Tags) (dur : ℕ) (pc : LeakRecovery) :
    Ends (leakRecoveryThread mask dur) pc := by
  have announce : Ends (leakRecoveryThread mask dur) .announce := .of fun _ => returns_ret _
  have unfreeze : Ends (leakRecoveryThread mask dur) .unfreeze := .of fun _ => announce
  have sleep wake : Ends (leakRecoveryThread mask dur) (.sleep wake) := .of fun _ => unfreeze
  have start : Ends (leakRecoveryThread mask dur) .start := .of fun _ => sleep _
  cases pc <;> solve_by_elim

theorem ends_disconnect (pc : Disconnect) : Ends (clientDisconnect sock) pc := by
  have close : Ends (clientDisconnect sock) .close := .of fun _ => returns_ret _
  have remove : Ends (clientDisconnect sock) .remove := .of fun _ => close
  cases pc <;> assumption

end Handlers

/-! ### Threads -/

section Threads

variable {α β : Type} {prog : α → Action (Next α β)} {pc : α} {th : Thread} {a : Action Thread}
  {Q : Thread → Prop} {sock : ℕ} {key : Key}

/-- The thread waits for the outside: for a connection, for a request, or it is at its end. -/
def Thread.Awaits : Thread → Prop
  | .main .accept | .login _ .recv | .session _ _ .recv | .finished => True
  | _ => False

theorem comes_of_action (ha : th.action = some a)
    (h : ∀ r, Comes (Pool.Own threadStep) Q (a.next r)) : Comes (Pool.Own threadStep) Q th := by
  refine .step ?_
  rintro th' ⟨s, c, s', new, hs⟩
  obtain ⟨a', r, ha', -, rfl, -⟩ := threadStep_eq_some.1 hs
  rw [ha] at ha'
  cases ha'
  exact h r

/-- **A program run by a thread.** -/
theorem Ends.run {f : α → Thread} {g : Next α β → Thread} (h : Ends prog pc)
    (hact : ∀ pc, (f pc).action = some ((prog pc).map g)) (hcont : ∀ pc, g (.cont pc) = f pc)
    (hdone : ∀ n : Next α β, n.Done → Comes (Pool.Own threadStep) Q (g n)) :
    Comes (Pool.Own threadStep) Q (f pc) := by
  rw [← hcont]
  refine Comes.map h hdone fun n th' hn hstep => ?_
  rcases n with pc | b | ⟨code, reason⟩
  · obtain ⟨s, c, s', new, hs⟩ := hstep
    obtain ⟨a, r, ha, -, rfl, -⟩ := threadStep_eq_some.1 hs
    rw [hcont, hact] at ha
    cases ha
    exact ⟨(prog pc).next r, ⟨pc, r, rfl, rfl⟩, rfl⟩
  · exact absurd (by rintro _ ⟨⟩) hn
  · exact absurd (by rintro _ ⟨⟩) hn

/-- A program inside the program that a thread runs. -/
theorem Ends.inside {α' β' : Type} {outer : α' → Action (Next α' β')} {f : α → α'}
    {g : Next α β → Next α' β'} {F : α' → Thread} {G : Next α' β' → Thread} (h : Ends prog pc)
    (hact : ∀ pc, (F pc).action = some ((outer pc).map G)) (hG : ∀ pc, G (.cont pc) = F pc)
    (hprog : ∀ pc, outer (f pc) = (prog pc).map g) (hcont : ∀ pc, g (.cont pc) = .cont (f pc))
    (hdone : ∀ n : Next α β, n.Done → Comes (Pool.Own threadStep) Q (G (g n))) :
    Comes (Pool.Own threadStep) Q (F (f pc)) := by
  refine h.run (f := fun pc => F (f pc)) (g := fun n => G (g n)) (fun pc => ?_) (fun pc => ?_) hdone
  · rw [hact, hprog, Action.map_map]
  · rw [hcont, hG]

/-- A thread that ends when its program returns. -/
theorem Ends.finish {prog : α → Action (Next α)} {f : α → Thread} (h : Ends prog pc)
    (hact : ∀ pc, (f pc).action = some ((prog pc).map (Thread.resume f))) :
    Comes (Pool.Own threadStep) Thread.Awaits (f pc) := by
  refine h.run hact (fun _ => rfl) fun n hn => ?_
  cases n with
  | cont pc => exact absurd rfl (hn pc)
  | _ => exact .here trivial

theorem comes_disconnect (pc : Disconnect) :
    Comes (Pool.Own threadStep) Thread.Awaits (.disconnect sock pc) :=
  (ends_disconnect pc).finish fun _ => rfl

theorem comes_bankruptcy (pc : Bankruptcy) :
    Comes (Pool.Own threadStep) Thread.Awaits (.session sock key (.bankruptcy pc)) := by
  refine (ends_bankruptcy pc).inside (G := Thread.afterCommand sock key) (fun _ => rfl)
    (fun _ => rfl) (fun _ => by rw [clientLoop]) (fun _ => rfl) fun n hn => ?_
  rcases n with pc | burned | ⟨code, reason⟩
  · exact absurd rfl (hn pc)
  · cases burned with
    | true => exact comes_disconnect _
    | false => exact .here trivial
  · exact comes_of_action rfl fun _ => .here trivial

theorem comes_error (code : ErrorCode) (reason : Bytes) (check : Bool) :
    Comes (Pool.Own threadStep) Thread.Awaits (.session sock key (.error code reason check)) := by
  refine comes_of_action rfl fun _ => ?_
  cases check with
  | true => exact comes_bankruptcy _
  | false => exact .here trivial

/-- A handler comes back to the loop. -/
theorem Ends.session {prog : α → Action (Next α)} {f : α → Command} {check : Bool}
    (h : Ends prog pc)
    (hloop : ∀ pc, clientLoop sock key (f pc) = (prog pc).map (Command.resume f check)) :
    Comes (Pool.Own threadStep) Thread.Awaits (.session sock key (f pc)) := by
  refine h.inside (G := Thread.afterCommand sock key) (fun _ => rfl) (fun _ => rfl) hloop
    (fun _ => rfl) fun n hn => ?_
  rcases n with pc | _ | ⟨code, reason⟩
  · exact absurd rfl (hn pc)
  · cases check with
    | true => exact comes_bankruptcy _
    | false => exact .here trivial
  · exact comes_error code reason check

/-- **A session** comes back to where it waits for a request, or it is over. -/
theorem comes_session (pc : Command) :
    Comes (Pool.Own threadStep) Thread.Awaits (.session sock key pc) := by
  cases pc with
  | recv => exact .here trivial
  | error code reason check => exact comes_error code reason check
  | bankruptcy pc => exact comes_bankruptcy pc
  | buy docId pc => exact (ends_buy docId pc).session fun _ => rfl
  | sell npcId docIds pc => exact (ends_sell npcId docIds pc).session fun _ => rfl
  | dispose docId pc => exact (ends_dispose docId pc).session fun _ => rfl
  | inventory pc => exact (ends_inventory sock key pc).session fun _ => rfl
  | rumor targetKey pc => exact (ends_rumor targetKey pc).session fun _ => rfl
  | payoff pc => exact (ends_payoff pc).session fun _ => rfl
  | chat text => exact comes_of_action rfl fun _ => .here trivial
  | minigame passcode pc => exact (ends_minigame passcode pc).session fun _ => rfl
  | selfRaid pc => exact (ends_selfRaid pc).session fun _ => rfl
  | leak pc =>
    refine (ends_publicLeak pc).inside (G := Thread.afterCommand sock key) (fun _ => rfl)
      (fun _ => rfl) (fun _ => by rw [clientLoop]) (fun _ => rfl) fun n hn => ?_
    rcases n with pc | fired | ⟨code, reason⟩
    · exact absurd rfl (hn pc)
    · cases fired with
      | true => exact .here trivial
      | false => exact comes_error _ _ _
    · exact comes_error _ _ _
  | fakeRich pc => exact (ends_fakeRich pc).session fun _ => rfl
  | endround pc => exact (ends_roundEnd _ pc).session fun _ => rfl

/-- A login comes to the session, or to the end of the connection. -/
theorem comes_login (pc : Login) : Comes (Pool.Own threadStep) Thread.Awaits (.login sock pc) := by
  have frozenSend key mask :
      Comes (Pool.Own threadStep) Thread.Awaits (.login sock (.frozenSend key mask)) :=
    comes_of_action rfl fun _ => .here trivial
  have frozenMask key : Comes (Pool.Own threadStep) Thread.Awaits (.login sock (.frozenMask key)) := by
    refine comes_of_action rfl fun mask => ?_
    simp only [Action.map, clientLogin]
    split_ifs
    · exact .here trivial
    · exact frozenSend key mask
  have npcSendNext key todo :
      Comes (Pool.Own threadStep) Thread.Awaits (.login sock (Login.npcSendNext key todo)) := by
    induction todo with
    | nil => exact frozenMask key
    | cons npc todo ih => exact comes_of_action rfl fun _ => ih
  have npcSnapshot key : Comes (Pool.Own threadStep) Thread.Awaits (.login sock (.npcSnapshot key)) :=
    comes_of_action rfl fun _ => npcSendNext key _
  have marketSendNext key todo :
      Comes (Pool.Own threadStep) Thread.Awaits (.login sock (Login.marketSendNext key todo)) := by
    induction todo with
    | nil => exact npcSnapshot key
    | cons slot todo ih => exact comes_of_action rfl fun _ => ih
  have marketSnapshot key :
      Comes (Pool.Own threadStep) Thread.Awaits (.login sock (.marketSnapshot key)) :=
    comes_of_action rfl fun _ => marketSendNext key _
  have reply key rec goal :
      Comes (Pool.Own threadStep) Thread.Awaits (.login sock (.reply key rec goal)) :=
    comes_of_action rfl fun _ => marketSnapshot key
  have goal key rec : Comes (Pool.Own threadStep) Thread.Awaits (.login sock (.goal key rec)) :=
    comes_of_action rfl fun _ => reply key rec _
  have mkdir key rec : Comes (Pool.Own threadStep) Thread.Awaits (.login sock (.mkdir key rec)) :=
    comes_of_action rfl fun _ => goal key rec
  have register key rec :
      Comes (Pool.Own threadStep) Thread.Awaits (.login sock (.register key rec)) :=
    comes_of_action rfl fun _ => mkdir key rec
  have append key rec : Comes (Pool.Own threadStep) Thread.Awaits (.login sock (.append key rec)) :=
    comes_of_action rfl fun _ => register key rec
  have refuse code reason :
      Comes (Pool.Own threadStep) Thread.Awaits (.login sock (.refuse code reason)) :=
    comes_of_action rfl fun _ => comes_disconnect _
  have lookup key : Comes (Pool.Own threadStep) Thread.Awaits (.login sock (.lookup key)) := by
    refine comes_of_action rfl fun r => ?_
    cases r with
    | error rec => exact append key _
    | ok p =>
      simp only [Action.map, clientLogin]
      split_ifs
      · exact refuse _ _
      · exact register key _
  have duplicate key : Comes (Pool.Own threadStep) Thread.Awaits (.login sock (.duplicate key)) := by
    refine comes_of_action rfl fun dup => ?_
    simp only [Action.map, clientLogin]
    split_ifs
    · exact refuse _ _
    · exact lookup key
  cases pc with
  | recv => exact .here trivial
  | marketSend key slot todo => exact marketSendNext key (slot :: todo)
  | npcSend key npc todo => exact npcSendNext key (npc :: todo)
  | _ => solve_by_elim

theorem comes_main (pc : Main) : Comes (Pool.Own threadStep) Thread.Awaits (.main pc) := by
  have accept : Comes (Pool.Own threadStep) Thread.Awaits (.main .accept) := .here trivial
  have reject sock : Comes (Pool.Own threadStep) Thread.Awaits (.main (.reject sock)) :=
    comes_of_action rfl fun _ => accept
  have add sock : Comes (Pool.Own threadStep) Thread.Awaits (.main (.add sock)) := by
    refine comes_of_action rfl fun added => ?_
    simp only [Action.map, mainThread]
    split_ifs
    · exact accept
    · exact reject sock
  have startEvents : Comes (Pool.Own threadStep) Thread.Awaits (.main .startEvents) := by
    refine comes_of_action rfl fun ok => ?_
    simp only [Action.map, mainThread]
    split_ifs
    · exact accept
    · exact .here trivial
  have seed pc : Comes (Pool.Own threadStep) Thread.Awaits (.main (.seed pc)) := by
    refine (ends_seed pc).inside (G := Thread.resume .main) (fun _ => rfl) (fun _ => rfl)
      (fun _ => by rw [mainThread]) (fun _ => rfl) fun n hn => ?_
    cases n with
    | cont pc => exact absurd rfl (hn pc)
    | _ => exact startEvents
  have npcInit : Comes (Pool.Own threadStep) Thread.Awaits (.main .npcInit) :=
    comes_of_action rfl fun _ => seed _
  have marketInit : Comes (Pool.Own threadStep) Thread.Awaits (.main .marketInit) :=
    comes_of_action rfl fun _ => npcInit
  cases pc <;> solve_by_elim

/-- **Every thread but the event thread** comes to where it waits for the outside. -/
theorem comes_awaits (hth : ∀ v pc, th ≠ .event v pc) :
    Comes (Pool.Own threadStep) Thread.Awaits th := by
  cases th with
  | main pc => exact comes_main pc
  | login sock pc => exact comes_login pc
  | session sock key pc => exact comes_session pc
  | disconnect sock pc => exact comes_disconnect pc
  | event v pc => exact absurd rfl (hth v pc)
  | npcSequence pc => exact (ends_npcSequence pc).finish fun _ => rfl
  | leakRecovery mask dur pc => exact (ends_leakRecovery mask dur pc).finish fun _ => rfl
  | raidTimeout serial pc => exact (ends_raidTimeout pc).finish fun _ => rfl
  | roundEndTimer pc => exact (ends_roundEndTimer pc).finish fun _ => rfl
  | finished => exact .here trivial

/-! ### The event thread -/

/-- The event thread begins its next tick. -/
def Thread.Ticks (k : ℕ) (th : Thread) : Prop := ∃ v, th = .event v .cap ∧ v.tick = k + 1

/-- A part of a tick, given that the rest of the tick comes to the next one. -/
theorem Ends.tick {f : α → Event} {v : EventVars} {rest : Thread} (h : Ends prog pc)
    {g : Next α β → EventVars × Event}
    (hevent : ∀ pc, eventThreadFunc v (f pc) = (prog pc).map g)
    (hcont : ∀ pc, g (.cont pc) = (v, f pc))
    (hdone : ∀ n : Next α β, n.Done → Thread.event (g n).1 (g n).2 = rest)
    (hrest : Comes (Pool.Own threadStep) Q rest) :
    Comes (Pool.Own threadStep) Q (.event v (f pc)) := by
  refine h.run (f := fun pc => .event v (f pc)) (g := fun n => .event (g n).1 (g n).2)
    (fun pc => ?_) (fun pc => ?_) fun n hn => ?_
  · have hact : (Thread.event v (f pc)).action =
        some ((eventThreadFunc v (f pc)).map fun p => .event p.1 p.2) := rfl
    rw [hact, hevent, Action.map_map]
  · rw [hcont]
  · rw [hdone n hn]
    exact hrest

/-- **The event thread** comes to its next tick. -/
theorem comes_ticks (v : EventVars) (pc : Event) :
    Comes (Pool.Own threadStep) (Thread.Ticks v.tick) (.event v pc) := by
  -- backwards through the loop, from the point where the tick is counted
  have sleep v wake : Comes (Pool.Own threadStep) (Thread.Ticks v.tick) (.event v (.sleep wake)) :=
    comes_of_action rfl fun _ => .here ⟨_, rfl, rfl⟩
  have tick v : Comes (Pool.Own threadStep) (Thread.Ticks v.tick) (.event v .tick) :=
    comes_of_action rfl fun _ => sleep v _
  have schedule v now :
      Comes (Pool.Own threadStep) (Thread.Ticks v.tick) (.event v (.schedule now)) :=
    comes_of_action rfl fun r => tick { v with nextPeriodicRaidAt := now + raidInterval (r 0) }
  have start v : Comes (Pool.Own threadStep) (Thread.Ticks v.tick) (.event v .start) :=
    comes_of_action rfl fun _ => schedule v _
  have newsSend v text :
      Comes (Pool.Own threadStep) (Thread.Ticks v.tick) (.event v (.newsSend text)) :=
    comes_of_action rfl fun _ => tick v
  have news v : Comes (Pool.Own threadStep) (Thread.Ticks v.tick) (.event v .news) :=
    comes_of_action rfl fun _ => newsSend v _
  have afterNpc v : Comes (Pool.Own threadStep) (Thread.Ticks v.tick)
      (.event v (Event.afterNpc v)) := by
    simp only [Event.afterNpc]
    split_ifs
    · exact news v
    · exact tick v
  have npcThread v : Comes (Pool.Own threadStep) (Thread.Ticks v.tick) (.event v .npcThread) :=
    comes_of_action rfl fun _ => afterNpc v
  have afterSpawn v : Comes (Pool.Own threadStep) (Thread.Ticks v.tick)
      (.event v (Event.afterSpawn v)) := by
    simp only [Event.afterSpawn]
    split_ifs
    · exact npcThread v
    · exact afterNpc v
  have spawn v pc : Comes (Pool.Own threadStep) (Thread.Ticks v.tick) (.event v (.spawn pc)) := by
    refine (ends_spawn pc).tick (fun _ => by rw [eventThreadFunc]) (fun _ => rfl) (fun n hn => ?_)
      (afterSpawn v)
    cases n with
    | cont pc => exact absurd rfl (hn pc)
    | _ => rfl
  have leak v pc : Comes (Pool.Own threadStep) (Thread.Ticks v.tick) (.event v (.leak pc)) := by
    refine (ends_publicLeak pc).tick (fun _ => by rw [eventThreadFunc]) (fun _ => rfl) (fun n hn => ?_)
      (spawn v .full)
    cases n with
    | cont pc => exact absurd rfl (hn pc)
    | _ => rfl
  have leakDice v : Comes (Pool.Own threadStep) (Thread.Ticks v.tick) (.event v .leakDice) := by
    refine comes_of_action rfl fun r => ?_
    simp only [Action.map, eventThreadFunc]
    split_ifs
    · exact leak v _
    · exact spawn v _
  have afterRaid v : Comes (Pool.Own threadStep) (Thread.Ticks v.tick)
      (.event v (Event.afterRaid v)) := by
    simp only [Event.afterRaid]
    split_ifs
    · exact leakDice v
    · exact spawn v _
  have raidSchedule v now :
      Comes (Pool.Own threadStep) (Thread.Ticks v.tick) (.event v (.raidSchedule now)) :=
    comes_of_action rfl fun r => afterRaid { v with nextPeriodicRaidAt := now + raidInterval (r 0) }
  have raidNext v : Comes (Pool.Own threadStep) (Thread.Ticks v.tick) (.event v .raidNext) :=
    comes_of_action rfl fun _ => raidSchedule v _
  have raid v pc : Comes (Pool.Own threadStep) (Thread.Ticks v.tick) (.event v (.raid pc)) := by
    refine (ends_periodicRaid pc).tick (fun _ => by rw [eventThreadFunc]) (fun _ => rfl)
      (fun n hn => ?_) (raidNext v)
    cases n with
    | cont pc => exact absurd rfl (hn pc)
    | _ => rfl
  have raidDue v : Comes (Pool.Own threadStep) (Thread.Ticks v.tick) (.event v .raidDue) := by
    refine comes_of_action rfl fun now => ?_
    simp only [Action.map, eventThreadFunc]
    split_ifs
    · exact raid v _
    · exact afterRaid v
  have ageMarket v pc :
      Comes (Pool.Own threadStep) (Thread.Ticks v.tick) (.event v (.ageMarket pc)) := by
    refine (ends_ageMarket pc).tick (fun _ => by rw [eventThreadFunc]) (fun _ => rfl)
      (fun n hn => ?_) (raidDue v)
    cases n with
    | cont pc => exact absurd rfl (hn pc)
    | _ => rfl
  have ageNpcs v pc : Comes (Pool.Own threadStep) (Thread.Ticks v.tick) (.event v (.ageNpcs pc)) := by
    refine (ends_ageNpcs pc).tick (fun _ => by rw [eventThreadFunc]) (fun _ => rfl)
      (fun n hn => ?_) (ageMarket v .despawn)
    cases n with
    | cont pc => exact absurd rfl (hn pc)
    | _ => rfl
  have roundEnd v pc :
      Comes (Pool.Own threadStep) (Thread.Ticks v.tick) (.event v (.roundEnd pc)) := by
    refine (ends_roundEnd _ pc).tick (fun _ => by rw [eventThreadFunc]) (fun _ => rfl)
      (fun n hn => ?_) (ageNpcs v .despawn)
    cases n with
    | cont pc => exact absurd rfl (hn pc)
    | _ => rfl
  have cap v : Comes (Pool.Own threadStep) (Thread.Ticks v.tick) (.event v .cap) := by
    refine comes_of_action rfl fun expired => ?_
    simp only [Action.map, eventThreadFunc]
    split_ifs
    · exact roundEnd v _
    · exact ageNpcs v _
  cases pc <;> solve_by_elim

end Threads

end UnderFlow
