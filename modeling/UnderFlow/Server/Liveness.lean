import UnderFlow.Server.Ending
import UnderFlow.Server.Replies

/-!
# Every request is served

Under a fair scheduler, while time goes on and the clients keep reading, no thread waits for another
one for ever.  `handle_rumor` holds its lock across operations, and who holds it need not wait.
`clients_mutex` is held while a packet is sent: it is given back when the send returns
(`SendsReturn`).

* `Lively` : every thread comes to where it waits for the outside, and the event thread ticks on.
* `SendsReturn` : every send returns, as the clients keep reading.
* `RumorHeld` : a thread inside `handle_rumor` holds the lock, when it is held.
* `rumor_free` : the lock is free again and again.
* `runs_of_busy` : a thread that does not wait for the outside is run.
* `lively_of_fair` : **every endless run is lively**, under strong fairness.
* `answered_of_fair` : **every request** that a handler has read is answered.
-/

namespace UnderFlow

variable {s s' : Shared} {c : Choice} {th th' : Thread} {a : Action Thread} {p p' : Server}
  {t n : ℕ} {o : Op} {r : o.Ret}

/-! ### What may have to wait -/

/-- The operation need not wait. -/
def Op.Free (s : Shared) : Op → Prop
  | .rumorEnter | .rumorReset => s.rumor.locked = false
  | .wait wake => wake ≤ s.clock
  | .accept => False
  | _ => True

theorem exec_of_free (h : o.Free s) (c : Choice) : ∃ s' r, o.exec s c = some (s', r) := by
  have hsome : (o.exec s c).isSome = true := by
    cases o with
    | rumorEnter =>
      have h : s.rumor.locked = false := h
      simp only [Op.exec, h, Bool.false_eq_true, ↓reduceIte]
      split_ifs <;> rfl
    | rumorReset =>
      have h : s.rumor.locked = false := h
      simp only [Op.exec, h, Bool.false_eq_true, ↓reduceIte]
      rfl
    | wait wake =>
      have h : wake ≤ s.clock := h
      simp only [Op.exec, h, ↓reduceIte]
      rfl
    | accept => exact h.elim
    | _ =>
      simp only [Op.exec]
      repeat' split
      all_goals rfl
  obtain ⟨⟨s', r⟩, he⟩ := Option.isSome_iff_exists.1 hsome
  exact ⟨s', r, he⟩

theorem free_of_exec (ho : o ≠ .accept) (h : o.exec s c = some (s', r)) : o.Free s := by
  cases o with
  | rumorEnter | rumorReset =>
    simp only [Op.exec] at h
    split_ifs at h with hlocked
    all_goals exact Bool.eq_false_of_not_eq_true hlocked
  | wait wake =>
    simp only [Op.exec] at h
    split_ifs at h with hwake
    exact hwake
  | accept => exact absurd rfl ho
  | _ => trivial

/-- A thread whose operation need not wait can run. -/
theorem next_of_free (hth : p.threads[t]? = some th) (ha : th.action = some a)
    (h : a.op.Free p.shared) (c : Choice) : ∃ p', server.next p (.run t c) = some p' := by
  obtain ⟨s', r, he⟩ := exec_of_free h c
  exact ⟨_, Pool.next_run.2 ⟨th, s', a.next r, a.op.spawned r, hth,
    threadStep_eq_some.2 ⟨a, r, ha, he, rfl, rfl⟩, rfl⟩⟩

/-! ### The lock of the rumors -/

/-- The thread is inside the critical section of `handle_rumor`. -/
def Thread.HoldsRumor : Thread → Prop
  | .session _ _ (.rumor _ (.lookup _)) | .session _ _ (.rumor _ (.leave _ _))
  | .session _ _ (.rumor _ (.update _ _ _)) | .session _ _ (.rumor _ (.commit _)) => True
  | _ => False

/-- The lock is held by a thread that will leave it. -/
def RumorHeld (p : Server) : Prop :=
  p.shared.rumor.locked = true → ∃ (t : ℕ) (th : Thread), p.threads[t]? = some th ∧ th.HoldsRumor

theorem rumor_writer (ha : th.action = some a) (ho : a.op.store = some .rumor) :
    (∃ sock key k q, th = .session sock key (.rumor k q)) ∨ ∃ q, th = .roundEndTimer q := by
  -- a program that does not write this store
  have hno : ∀ {β : Type} {b : Action β} {l : List Store} {fd}, b.Within l fd → .rumor ∉ l →
      b.op = a.op → False := by
    intro β b l fd hb hl hop
    exact hl (hb.1 _ (by rw [hop]; exact ho))
  cases th with
  | main pc => cases ha; exact (hno (mainThread_within pc) (by decide) rfl).elim
  | login sock pc => cases ha; exact (hno (clientLogin_within sock pc) (by decide) rfl).elim
  | session sock key pc =>
    cases ha
    cases pc with
    | rumor k q => exact .inl ⟨sock, key, k, q, rfl⟩
    | bankruptcy q => exact (hno (checkBankruptcy_within sock key q) (by decide) rfl).elim
    | buy d q => exact (hno (handleBuy_within sock key d q) (by decide) rfl).elim
    | sell n ds q => exact (hno (handleSell_within sock key n ds q) (by decide) rfl).elim
    | dispose d q => exact (hno (handleDispose_within sock key d q) (by decide) rfl).elim
    | inventory q => exact (hno (handleInventory_within sock key q) (by decide) rfl).elim
    | payoff q => exact (hno (handlePayoff_within sock key q) (by decide) rfl).elim
    | minigame code q =>
      exact (hno (handleMinigameSubmit_within sock key code q) (by decide) rfl).elim
    | selfRaid q => exact (hno (fireSelfPoliceRaid_within sock key q) (by decide) rfl).elim
    | leak q => exact (hno (firePublicLeak_within q) (by decide) rfl).elim
    | fakeRich q => exact (hno (handleFakeRich_within sock key q) (by decide) rfl).elim
    | endround q => exact (hno (fireRoundEndCountdown_within _ q) (by decide) rfl).elim
    | recv | error _ _ _ | chat _ => cases ho
  | disconnect sock pc =>
    cases ha
    exact (hno (clientDisconnect_within sock pc) (by decide) rfl).elim
  | event v pc => cases ha; exact (hno (eventThreadFunc_within v pc) (by decide) rfl).elim
  | npcSequence pc => cases ha; exact (hno (eventDoNpcSequence_within pc) (by decide) rfl).elim
  | leakRecovery mask dur pc =>
    cases ha
    exact (hno (leakRecoveryThread_within mask dur pc) (by decide) rfl).elim
  | raidTimeout serial pc =>
    cases ha
    exact (hno (periodicRaidTimeoutThread_within pc) (by decide) rfl).elim
  | roundEndTimer pc => exact .inr ⟨pc, rfl⟩
  | finished => cases ha

/-- Who enters holds the lock; every other operation on it frees it. -/
theorem locked_of_writer (ha : th.action = some a) (ho : a.op.store = some .rumor) {r : a.op.Ret}
    (hr : a.op.exec s c = some (s', r)) (h : s'.rumor.locked = true) : (a.next r).HoldsRumor := by
  rcases rumor_writer ha ho with ⟨sock, key, k, q, rfl⟩ | ⟨q, rfl⟩
  · cases ha
    cases q with
    | enter =>
      simp only [Action.map, clientLoop, handleRumor, Op.exec] at hr
      split_ifs at hr with hlocked hcool
      · cases hr
        exact absurd h hlocked
      · cases hr
        trivial
    | leave code reason | commit now =>
      cases hr
      cases h
    | inventory q =>
      cases q with
      | list q => cases q <;> cases ho
      | _ => cases ho
    | _ => cases ho
  · cases ha
    cases q with
    | reset q =>
      cases q with
      | rumor =>
        simp only [Action.map, roundEndTimerThread, triggerRoundReset, Op.exec] at hr
        split_ifs at hr
        cases hr
        cases h
      | masterPurge q | userPurge _ _ q | seed q => cases q <;> cases ho
      | _ => cases ho
    | _ => cases ho

/-- **Who holds the lock** keeps it until it frees it, and whoever takes it holds it. -/
theorem holds_step (ha : th.action = some a) {r : a.op.Ret} (hr : a.op.exec s c = some (s', r))
    (h : s'.rumor.locked = true) (hbefore : th.HoldsRumor ∨ s.rumor.locked = false) :
    (a.next r).HoldsRumor := by
  by_cases ho : a.op.store = some .rumor
  · exact locked_of_writer ha ho hr h
  · rw [(exec_frame hr).rumor ho] at h
    have hth : th.HoldsRumor := hbefore.resolve_right (by simp [h])
    cases th with
    | session sock key pc =>
      cases pc with
      | rumor k q =>
        cases ha
        cases q with
        | lookup now =>
          cases r with
          | error rec => trivial
          | ok p =>
            simp only [Action.map, clientLoop, handleRumor]
            split_ifs <;> trivial
        | update now rec off => trivial
        | leave code reason | commit now => exact absurd rfl ho
        | _ => exact hth.elim
      | _ => exact hth.elim
    | _ => exact hth.elim

theorem rumorHeld_step {l : Label} (hI : RumorHeld p) (h : server.next p l = some p') :
    RumorHeld p' := by
  cases l with
  | env m =>
    obtain rfl := Pool.next_env.1 h
    exact hI
  | run t c =>
    obtain ⟨th, a, r, hth, ha, hr, hthreads⟩ := server_run h
    intro hlocked
    have hself : p'.threads[t]? = some (a.next r) := by
      rw [hthreads]
      exact Pool.getElem?_step_self hth
    by_cases hbefore : th.HoldsRumor ∨ p.shared.rumor.locked = false
    · exact ⟨t, _, hself, holds_step ha hr hlocked hbefore⟩
    · obtain ⟨hno, hold⟩ := not_or.1 hbefore
      obtain ⟨j, u, hu, hholds⟩ := hI (by simpa using hold)
      have hj : j ≠ t := by
        rintro rfl
        rw [hth] at hu
        cases hu
        exact hno hholds
      refine ⟨j, u, ?_, hholds⟩
      rw [hthreads]
      exact Pool.getElem?_step_of_ne hj hu

theorem rumorHeld_boot (cwd : Dir) (files : Files) (users : UserDb) (clock : ℕ) :
    RumorHeld (boot cwd files users clock) := by
  rintro ⟨⟩

/-- Who holds the lock need not wait, nor does it wait for the outside. -/
theorem free_of_holds (ha : th.action = some a) (h : th.HoldsRumor) :
    a.op.Free s ∧ ¬ th.Awaits := by
  cases th with
  | session sock key pc =>
    cases pc with
    | rumor k q =>
      cases ha
      cases q with
      | lookup _ | leave _ _ | update _ _ _ | commit _ => exact ⟨trivial, id⟩
      | _ => exact h.elim
    | _ => exact h.elim
  | _ => exact h.elim

theorem exists_action (h : ¬ th.Awaits) : ∃ a, th.action = some a := by
  cases th with
  | finished => exact absurd trivial h
  | _ => exact ⟨_, rfl⟩

/-! ### Endless runs -/

/-- The clock goes on for ever. -/
def TimePasses (R : server.Endless) : Prop := ∀ k, ∃ n, k ≤ (R.st n).shared.clock

/-- The thread is sending a packet. -/
def Thread.Sends (th : Thread) : Prop := ∃ a, th.action = some a ∧ a.op.delivers = true

/-- **The clients keep reading**: a thread that is sending a packet comes back from it. -/
def SendsReturn (R : server.Endless) : Prop :=
  ∀ (n t : ℕ) (th : Thread), (R.st n).threads[t]? = some th → th.Sends →
    ∃ m, n ≤ m ∧ ∃ c, R.lab m = .run t c

/-- Strong fairness: a thread that could run again and again is run, if it neither waits for the
outside nor for the receivers of a packet. -/
def SchedulerFair (R : server.Endless) : Prop := Pool.Fair R fun th => th.Awaits ∨ th.Sends

/-- **A lively run**: no thread is kept from its work for ever. -/
structure Lively (R : server.Endless) : Prop where
  /-- Every other thread comes to where it waits for the outside. -/
  served : ∀ (n t : ℕ) (th : Thread), (R.st n).threads[t]? = some th → (∀ v pc, th ≠ .event v pc) →
    ∃ (m : ℕ) (th' : Thread), n ≤ m ∧ (R.st m).threads[t]? = some th' ∧ th'.Awaits
  /-- The event thread ticks on. -/
  ticks : ∀ (n t : ℕ) (v : EventVars) (pc : Event), (R.st n).threads[t]? = some (.event v pc) →
    ∀ k, ∃ (m : ℕ) (v' : EventVars) (pc' : Event), n ≤ m ∧
      (R.st m).threads[t]? = some (.event v' pc') ∧ k ≤ v'.tick

section Endless

variable {R : server.Endless} {m k : ℕ}

theorem clock_step {l : Label} (h : server.next p l = some p') :
    p.shared.clock ≤ p'.shared.clock := by
  cases l with
  | env m =>
    obtain rfl := Pool.next_env.1 h
    exact Nat.le_add_right _ _
  | run t c =>
    obtain ⟨th, a, r, -, -, hr, -⟩ := server_run h
    exact (exec_frame hr).clock.ge

theorem clock_mono (h : n ≤ m) : (R.st n).shared.clock ≤ (R.st m).shared.clock := by
  induction m, h using Nat.le_induction with
  | base => exact le_rfl
  | succ m _ ih => exact ih.trans (clock_step (R.step m))

/-- Who holds the lock is there as long as it is held. -/
theorem holder_stays (hlocked : ∀ m, n ≤ m → (R.st m).shared.rumor.locked = true)
    (hth : (R.st n).threads[t]? = some th) (h : th.HoldsRumor) (hm : n ≤ m) :
    ∃ u, (R.st m).threads[t]? = some u ∧ u.HoldsRumor := by
  induction m, hm using Nat.le_induction with
  | base => exact ⟨th, hth, h⟩
  | succ m hm ih =>
    obtain ⟨u, hu, hholds⟩ := ih
    have hn := R.step m
    cases hl : R.lab m with
    | env e =>
      rw [hl] at hn
      rw [Pool.next_env.1 hn]
      exact ⟨u, hu, hholds⟩
    | run j c =>
      rw [hl] at hn
      obtain ⟨v, a, r, hv, ha, hr, hthreads⟩ := server_run hn
      rw [hthreads]
      by_cases hj : t = j
      · subst hj
        rw [hu] at hv
        cases hv
        exact ⟨_, Pool.getElem?_step_self hu,
          holds_step ha hr (hlocked _ (hm.trans (Nat.le_succ m))) (.inl hholds)⟩
      · exact ⟨u, Pool.getElem?_step_of_ne hj hu, hholds⟩

/-- **The lock is free again and again**: who holds it need not wait, and leaves. -/
theorem rumor_free (hfair : Pool.Fair R Thread.Awaits) (hheld : ∀ n, RumorHeld (R.st n)) (n : ℕ) :
    ∃ m, n ≤ m ∧ (R.st m).shared.rumor.locked = false := by
  by_contra hno
  have hlocked : ∀ m, n ≤ m → (R.st m).shared.rumor.locked = true := by
    intro m hm
    by_contra hfree
    exact hno ⟨m, hm, by simpa using hfree⟩
  obtain ⟨t, th, hth, h⟩ := hheld n (hlocked n le_rfl)
  have hstays : ∀ m u, n ≤ m → (R.st m).threads[t]? = some u → u.HoldsRumor := by
    intro m u hm hu
    obtain ⟨v, hv, hholds⟩ := holder_stays hlocked hth h hm
    rw [hu] at hv
    cases hv
    exact hholds
  -- the holder is run until it waits for a request, and then it does not hold the lock
  have hcomes : Comes (Pool.Own threadStep) Thread.Awaits th :=
    comes_awaits (by rintro v pc rfl; exact h)
  obtain ⟨m, u, hm, hu, hawaits⟩ := Pool.comes_of_runs hth hcomes fun k u hk hu hbusy => by
    refine Pool.runs_of_fair hfair hu fun hstay j hj => ⟨j, le_rfl, u, hstay j hj, hbusy, {}, ?_⟩
    obtain ⟨a, ha⟩ := exists_action hbusy
    exact next_of_free (hstay j hj) ha (free_of_holds ha (hstays k u hk hu)).1 {}
  obtain ⟨a, ha⟩ : ∃ a, u.action = some a := by
    cases u with
    | finished => exact (hstays m _ hm hu).elim
    | _ => exact ⟨_, rfl⟩
  exact (free_of_holds (s := (R.st m).shared) ha (hstays m u hm hu)).2 hawaits

/-- Only the main thread accepts connections, and it waits for them. -/
theorem awaits_of_accept (ha : th.action = some a) (ho : a.op = .accept) : th.Awaits := by
  have hst : a.op.store = some .openFds := by rw [ho]; rfl
  have hno : ∀ {β : Type} {b : Action β} {l : List Store} {fd}, b.Within l fd → .openFds ∉ l →
      b.op = a.op → False := by
    intro β b l fd hb hl hop
    exact hl (hb.1 _ (by rw [hop]; exact hst))
  cases th with
  | main pc =>
    cases ha
    cases pc with
    | accept => trivial
    | seed pc => exact (hno (seedMarketAndNpc_within pc) (by decide) rfl).elim
    | _ => cases ho
  | disconnect sock pc =>
    cases ha
    cases pc <;> cases ho
  | login sock pc => cases ha; exact (hno (clientLogin_within sock pc) (by decide) rfl).elim
  | session sock key pc =>
    cases ha
    exact (hno (clientLoop_within sock key pc) (by decide) rfl).elim
  | event v pc => cases ha; exact (hno (eventThreadFunc_within v pc) (by decide) rfl).elim
  | npcSequence pc => cases ha; exact (hno (eventDoNpcSequence_within pc) (by decide) rfl).elim
  | leakRecovery mask dur pc =>
    cases ha
    exact (hno (leakRecoveryThread_within mask dur pc) (by decide) rfl).elim
  | raidTimeout serial pc =>
    cases ha
    exact (hno (periodicRaidTimeoutThread_within pc) (by decide) rfl).elim
  | roundEndTimer pc =>
    cases ha
    exact (hno (roundEndTimerThread_within pc) (by decide) rfl).elim
  | finished => cases ha

/-- **A thread that does not wait for the outside is run.** -/
theorem runs_of_busy (hfair : Pool.Fair R Thread.Awaits) (htime : TimePasses R)
    (hheld : ∀ n, RumorHeld (R.st n)) (hth : (R.st n).threads[t]? = some th) (hbusy : ¬ th.Awaits) :
    ∃ m, n ≤ m ∧ ∃ c, R.lab m = .run t c := by
  obtain ⟨a, ha⟩ := exists_action hbusy
  refine Pool.runs_of_fair hfair hth fun hstay k hk => ?_
  -- a time at which its operation need not wait
  obtain ⟨m, hm, hfree⟩ : ∃ m, k ≤ m ∧ a.op.Free (R.st m).shared := by
    by_cases hrumor : a.op = .rumorEnter ∨ a.op = .rumorReset
    · obtain ⟨m, hm, hfree⟩ := rumor_free hfair hheld k
      exact ⟨m, hm, by rcases hrumor with h | h <;> rw [h] <;> exact hfree⟩
    · by_cases hwait : ∃ wake, a.op = .wait wake
      · obtain ⟨wake, h⟩ := hwait
        obtain ⟨j, hj⟩ := htime wake
        refine ⟨max j k, le_max_right _ _, ?_⟩
        rw [h]
        exact hj.trans (clock_mono (le_max_left _ _))
      · refine ⟨k, le_rfl, ?_⟩
        have haccept : a.op ≠ .accept := fun h => hbusy (awaits_of_accept ha h)
        revert hrumor hwait haccept
        cases a.op with
        | rumorEnter => exact fun h => absurd (.inl rfl) h
        | rumorReset => exact fun h => absurd (.inr rfl) h
        | wait wake => exact fun _ h => absurd ⟨wake, rfl⟩ h
        | accept => exact fun _ _ h => absurd rfl h
        | _ => exact fun _ _ _ => trivial
  have hstay := hstay m (hk.trans hm)
  exact ⟨m, hm, th, hstay, hbusy, {}, next_of_free hstay ha hfree {}⟩

/-- The event thread stays the event thread. -/
theorem event_stays {v : EventVars} {pc : Event} (hth : (R.st n).threads[t]? = some (.event v pc))
    (hm : n ≤ m) : ∃ v' pc', (R.st m).threads[t]? = some (.event v' pc') := by
  induction m, hm using Nat.le_induction with
  | base => exact ⟨v, pc, hth⟩
  | succ m _ ih =>
    obtain ⟨v', pc', hu⟩ := ih
    have hn := R.step m
    cases hl : R.lab m with
    | env e =>
      rw [hl] at hn
      rw [Pool.next_env.1 hn]
      exact ⟨v', pc', hu⟩
    | run j c =>
      rw [hl] at hn
      obtain ⟨w, a, r, hw, ha, hr, hthreads⟩ := server_run hn
      rw [hthreads]
      by_cases hj : t = j
      · subst hj
        rw [hu] at hw
        cases hw
        cases ha
        exact ⟨_, _, Pool.getElem?_step_self hu⟩
      · exact ⟨v', pc', Pool.getElem?_step_of_ne hj hu⟩

theorem rumorHeld_of_reach {cwd : Dir} {files : Files} {users : UserDb} {clock : ℕ}
    (hboot : server.Reach System.anyStep (boot cwd files users clock) (R.st 0)) (n : ℕ) :
    RumorHeld (R.st n) :=
  (hboot.trans (R.reach (Nat.zero_le n))).invariant (rumorHeld_boot cwd files users clock)
    fun _ _ _ _ hI _ hn => rumorHeld_step hI hn

/-- Every thread but the event thread comes to where it waits for the outside. -/
theorem awaits_of_fair (hfair : Pool.Fair R Thread.Awaits) (htime : TimePasses R)
    (hheld : ∀ n, RumorHeld (R.st n)) (hth : (R.st n).threads[t]? = some th)
    (hevent : ∀ v pc, th ≠ .event v pc) :
    ∃ m th', n ≤ m ∧ (R.st m).threads[t]? = some th' ∧ th'.Awaits :=
  Pool.comes_of_runs hth (comes_awaits hevent) fun _ _ _ hu hbusy =>
    runs_of_busy hfair htime hheld hu hbusy

/-- The event thread comes to its next tick. -/
theorem ticks_of_fair (hfair : Pool.Fair R Thread.Awaits) (htime : TimePasses R)
    (hheld : ∀ n, RumorHeld (R.st n)) {v : EventVars} {pc : Event}
    (hth : (R.st n).threads[t]? = some (.event v pc)) :
    ∃ m v', n ≤ m ∧ (R.st m).threads[t]? = some (.event v' .cap) ∧ v'.tick = v.tick + 1 := by
  obtain ⟨m, _, hm, hu, w, rfl, hw⟩ := Pool.comes_of_runs hth (comes_ticks v pc)
    fun k u hk hu _ => by
      obtain ⟨w, q, hw⟩ := event_stays hth hk
      rw [hu] at hw
      cases hw
      exact runs_of_busy hfair htime hheld hu id
  exact ⟨m, w, hm, hu, hw⟩

/-- **Every endless run is lively**, under a fair scheduler, while time goes on and the clients keep
reading. -/
theorem lively_of_fair {cwd : Dir} {files : Files} {users : UserDb} {clock : ℕ}
    (hboot : server.Reach System.anyStep (boot cwd files users clock) (R.st 0))
    (hfair : SchedulerFair R) (hsends : SendsReturn R) (htime : TimePasses R) : Lively R := by
  have hfair : Pool.Fair R Thread.Awaits := hfair.narrow hsends
  have hheld := rumorHeld_of_reach hboot
  refine ⟨fun n t th hth hevent => awaits_of_fair hfair htime hheld hth hevent,
    fun n t v pc hth k => ?_⟩
  induction k with
  | zero => exact ⟨n, v, pc, le_rfl, hth, Nat.zero_le _⟩
  | succ k ih =>
    obtain ⟨m, v', pc', hm, hu, hk⟩ := ih
    obtain ⟨m', w, hm', hu', hw⟩ := ticks_of_fair hfair htime hheld hu
    exact ⟨m', w, .cap, hm.trans hm', hu', by omega⟩

end Endless

/-- **Every request is answered**: whatever a handler has read, it answers, under a fair scheduler,
while time goes on and the clients keep reading. -/
theorem answered_of_fair {R : talkServer.Endless} {cwd : Dir} {files : Files} {users : UserDb}
    {clock : ℕ} (hboot : talkServer.Reach System.anyStep (boot cwd files users clock, []) (R.st 0))
    (hfair : SchedulerFair R.forget) (hsends : SendsReturn R.forget) (htime : TimePasses R.forget)
    {sock : ℕ} {key : Key} {pc : Command}
    (hth : (R.st n).1.threads[t]? = some (.session sock key pc)) :
    ∃ m, n ≤ m ∧ Dialogue.Over Request.Answers (talkOf t (R.st m).2) := by
  have hpool : (server.withHistory talkAt).Reach (fun p l => System.anyStep p.1 l)
      (boot cwd files users clock, []) (R.st 0) := hboot
  have hfair : Pool.Fair R.forget Thread.Awaits := hfair.narrow hsends
  have hheld : ∀ n, RumorHeld (R.forget.st n) :=
    rumorHeld_of_reach (R := R.forget) hpool.of_withHistory
  obtain ⟨m, u, hm, hu, hawaits⟩ := awaits_of_fair (R := R.forget) hfair htime hheld hth
    (by rintro _ _ ⟨⟩)
  have hspeaks := speaks_of_converses
    ((conversing_of_reach (hboot.trans (R.reach (Nat.zero_le m)))).each t u hu)
  refine ⟨m, hm, ?_⟩
  cases u with
  | session sock key pc =>
    cases pc with
    | recv => exact (hspeaks.heard sock key rfl).ended
    | _ => exact hawaits.elim
  | _ => exact hspeaks.gone (by rintro _ _ _ ⟨⟩)

/-! ### A fair run -/

/-- All threads but the second one, the event thread, wait for the outside. -/
structure Ticking (p : Server) : Prop where
  event : ∃ v pc, p.threads[1]? = some (.event v pc)
  others : ∀ (t : ℕ) (th : Thread), t ≠ 1 → p.threads[t]? = some th → th.Awaits

/-- A second passes, or the event thread runs when it can; it starts no thread. -/
def tickLabel (n : ℕ) (p : Server) : Label :=
  if n % 2 = 1 ∧ (server.next p (.run 1 { ok := false })).isSome then .run 1 { ok := false }
  else .env 1

theorem tickLabel_isSome (n : ℕ) (p : Server) : (server.next p (tickLabel n p)).isSome = true := by
  simp only [tickLabel]
  split_ifs with h
  · exact h.2
  · rfl

/-- The event thread ticks while nobody plays. -/
def tickState (p : Server) : ℕ → Server
  | 0 => p
  | n + 1 => (server.next (tickState p n) (tickLabel n (tickState p n))).get (tickLabel_isSome _ _)

/-- The endless run in which the event thread ticks alone. -/
def tickRun (p : Server) : server.Endless where
  st := tickState p
  lab n := tickLabel n (tickState p n)
  step n := (Option.some_get (tickLabel_isSome n _)).symm

theorem spawned_of_fail {o : Op} {r : o.Ret} (h : o.exec s { ok := false } = some (s', r)) :
    o.spawned r = [] := by
  cases o with
  | pthreadCreate new =>
    cases h
    rfl
  | clientAdd sock =>
    cases h
    rfl
  | _ => rfl

theorem ticking_step (hI : Ticking p) (h : server.next p (tickLabel n p) = some p') :
    Ticking p' := by
  obtain ⟨v, pc, hth⟩ := hI.event
  simp only [tickLabel] at h
  split_ifs at h
  · obtain ⟨th, a, r, hth', ha, hr, hthreads⟩ := server_run h
    rw [hth] at hth'
    cases hth'
    rw [spawned_of_fail hr] at hthreads
    refine ⟨?_, fun t u ht hu => ?_⟩
    · rw [hthreads]
      cases ha
      exact ⟨_, _, Pool.getElem?_step_self hth⟩
    · rw [hthreads] at hu
      rcases Pool.getElem?_step hu with ⟨-, hu⟩ | ⟨rfl, -⟩ | hu
      · exact hI.others t u ht hu
      · exact absurd rfl ht
      · cases hu
  · obtain rfl := Pool.next_env.1 h
    exact ⟨⟨v, pc, hth⟩, hI.others⟩

theorem ticking_run (h : Ticking p) (n : ℕ) : Ticking ((tickRun p).st n) := by
  induction n with
  | zero => exact h
  | succ n ih => exact ticking_step ih ((tickRun p).step n)

/-- Every other step lets a second pass. -/
theorem clock_tickRun (p : Server) (k : ℕ) : k ≤ ((tickRun p).st (2 * k)).shared.clock := by
  induction k with
  | zero => exact Nat.zero_le _
  | succ k ih =>
    have hn := (tickRun p).step (2 * k)
    have hl : (tickRun p).lab (2 * k) = .env 1 := if_neg (by omega)
    rw [hl] at hn
    have hnext : ((tickRun p).st (2 * k + 1)).shared.clock =
        ((tickRun p).st (2 * k)).shared.clock + 1 := by
      rw [Pool.next_env.1 hn]
    have hmono : ((tickRun p).st (2 * k + 1)).shared.clock ≤
        ((tickRun p).st (2 * (k + 1))).shared.clock := clock_mono (Nat.le_succ _)
    omega

theorem timePasses_tickRun (p : Server) : TimePasses (tickRun p) :=
  fun k => ⟨2 * k, clock_tickRun p k⟩

theorem Op.Free.later (h : o.Free s) (seconds : ℕ) :
    o.Free { s with clock := s.clock + seconds } := by
  cases o with
  | wait wake => exact Nat.le_add_right_of_le h
  | _ => exact h

theorem lab_of_free {m : ℕ} (th : Thread) (hodd : m % 2 = 1)
    (hth : ((tickRun p).st m).threads[1]? = some th) (ha : th.action = some a) (h : a.op.Free ((tickRun p).st m).shared) :
    (tickRun p).lab m = .run 1 { ok := false } := by
  obtain ⟨p', hp'⟩ := next_of_free hth ha h { ok := false }
  exact if_pos ⟨hodd, Option.isSome_iff_exists.2 ⟨p', hp'⟩⟩

/-- **The event thread is run whenever it can**, at the next odd step. -/
theorem runs_tickRun {m : ℕ} (hth : ((tickRun p).st m).threads[1]? = some th)
    (ha : th.action = some a) (h : a.op.Free ((tickRun p).st m).shared) :
    ∃ k, m ≤ k ∧ ∃ c, (tickRun p).lab k = .run 1 c := by
  rcases Nat.mod_two_eq_zero_or_one m with heven | hodd
  · have hn := (tickRun p).step m
    have hl : (tickRun p).lab m = .env 1 := if_neg (by omega)
    rw [hl] at hn
    have hnext := Pool.next_env.1 hn
    refine ⟨m + 1, Nat.le_succ m, _, lab_of_free th (by omega) ?_ ha ?_⟩
    · rw [hnext]
      exact hth
    · rw [hnext]
      exact h.later 1
  · exact ⟨m, le_rfl, _, lab_of_free th hodd hth ha h⟩

theorem fair_tickRun (h : Ticking p) : SchedulerFair (tickRun p) := by
  refine Pool.Fair.excuse fun t n hready => ?_
  obtain ⟨m, hm, th, hth, hbusy, c, p', hp'⟩ := hready n le_rfl
  by_cases ht : t = 1
  · subst ht
    obtain ⟨th', a, r, hth', ha, hr, -⟩ := server_run hp'
    rw [hth] at hth'
    cases hth'
    obtain ⟨k, hk, hrun⟩ :=
      runs_tickRun hth ha (free_of_exec (fun ho => hbusy (awaits_of_accept ha ho)) hr)
    exact ⟨k, hm.trans hk, hrun⟩
  · exact absurd ((ticking_run h m).others t th ht hth) hbusy

theorem free_of_delivers (h : o.delivers = true) : o.Free s := by
  cases o <;> trivial

theorem not_sends_of_awaits (h : th.Awaits) : ¬ th.Sends := by
  rintro ⟨a, ha, hsends⟩
  cases th with
  | main pc => cases pc <;> first | exact h.elim | (cases ha; cases hsends)
  | login sock pc => cases pc <;> first | exact h.elim | (cases ha; cases hsends)
  | session sock key pc => cases pc <;> first | exact h.elim | (cases ha; cases hsends)
  | finished => cases ha
  | _ => exact h.elim

/-- The others send nothing, and the event thread is run. -/
theorem sendsReturn_tickRun (h : Ticking p) : SendsReturn (tickRun p) := by
  rintro n t th hth ⟨a, ha, hsends⟩
  by_cases ht : t = 1
  · subst ht
    exact runs_tickRun hth ha (free_of_delivers hsends)
  · exact absurd ⟨a, ha, hsends⟩ (not_sends_of_awaits ((ticking_run h n).others t th ht hth))

/-- The main thread accepts, and a session waits beside the event thread. -/
def settled : List Thread → Bool
  | [.main .accept, .event _ _, .session _ _ .recv] => true
  | _ => false

theorem ticking_of_settled (h : settled p.threads = true) : Ticking p := by
  simp only [settled] at h
  split at h
  · rename_i v pc sock key heq
    refine ⟨⟨v, pc, by rw [heq]; rfl⟩, fun t th ht hth => ?_⟩
    rw [heq] at hth
    rcases t with _ | _ | _ | t
    · cases hth
      trivial
    · exact absurd rfl ht
    · cases hth
      trivial
    · cases hth
  · cases h

theorem session_of_settled {ths : List Thread} (h : settled ths = true) :
    ∃ sock key, ths[2]? = some (.session sock key .recv) := by
  simp only [settled] at h
  split at h
  · exact ⟨_, _, rfl⟩
  · cases h

/-- Alice has bought a document, and the event thread ticks on: her purchase is answered. -/
theorem answered_alice : ∃ R : talkServer.Endless,
    talkServer.Reach System.anyStep (freshBoot, []) (R.st 0) ∧
    .asked (.buy 47) ∈ talkOf 2 (R.st 0).2 ∧
    ∃ m, Dialogue.Over Request.Answers (talkOf 2 (R.st m).2) := by
  obtain ⟨q, hq, hf⟩ := talkServer.exists_reach_of_any System.anyStep (freshBoot, [])
    secondBuyScript (fun q => settled q.1.threads && decide (.asked (.buy 47) ∈ talkOf 2 q.2))
    (by decide +kernel)
  obtain ⟨hsettled, hasked⟩ := Bool.and_eq_true_iff.1 hf
  have hticking := ticking_of_settled hsettled
  obtain ⟨sock, key, hth⟩ := session_of_settled hsettled
  obtain ⟨m, -, hm⟩ := answered_of_fair (R := (tickRun q.1).record talkAt q.2) hq
    (fair_tickRun hticking) (sendsReturn_tickRun hticking) (timePasses_tickRun q.1) (n := 0) hth
  exact ⟨_, hq, of_decide_eq_true hasked, m, hm⟩

/-- The same run is lively. -/
theorem lively_tickRun : ∃ R : server.Endless,
    server.Reach System.anyStep freshBoot (R.st 0) ∧ Lively R := by
  obtain ⟨q, hq, hf⟩ := server.exists_reach_of_any System.anyStep freshBoot
    secondBuyScript (fun q => settled q.threads) (by decide +kernel)
  have hticking := ticking_of_settled hf
  exact ⟨tickRun q, hq, lively_of_fair hq (fair_tickRun hticking) (sendsReturn_tickRun hticking)
    (timePasses_tickRun q)⟩

end UnderFlow
