import UnderFlow.Server.RoundState
import UnderFlow.Server.Origin
import Mathlib.Data.List.Induction
import Mathlib.Data.Nat.Find

/-!
# Countdowns

The third escape and the cap are noticed in one critical section, and `fire_round_end_countdown`
claims the round in a later one.  The timer it starts resets the round.

* `Trigger` : why a thread is about to claim the round; `Trigger.Earned` says that it still may.
* `Thread.holds` : the thread has claimed the round, or is the timer of the countdown.
* `CountdownGuard` : nobody is about to claim the round when it is reset.
* `countdownsBelong_of_guard` : then every countdown belongs to the round that earned it.
* `not_countdownsBelong` : a fourth escape of one round claims the next one.
-/

namespace UnderFlow

variable {s s' : Shared} {c : Choice} {th th' u : Thread} {a : Action Thread} {o : Op} {r : Round}
  {now now' : ℕ} {sock : ℕ} {key : Key}

/-! ### The record -/

/-- What the countdowns of a run are judged by. -/
inductive CountdownEvent where
  | round (e : RoundEvent)
  /-- `fire_round_end_countdown` sets `g_round_end_active`. -/
  | claimed (now : ℕ)

/-- What an operation adds to the record. -/
def Op.countdownEvents (s : Shared) : Op → List CountdownEvent
  | .roundEndClaim => if s.round.endActive then [] else [.claimed s.clock]
  | o => (o.roundEvents s).map .round

/-- What a step adds to the history. -/
def countdownEventsAt (p : Server) (l : Label) : List CountdownEvent :=
  (opAt p l).elim [] (Op.countdownEvents p.shared)

/-- The server with a record of its escapes, countdowns and resets. -/
def countdownServer : System (Server × List CountdownEvent) Label :=
  server.withHistory countdownEventsAt

/-- The escapes and resets of a record. -/
def roundsOf (hist : List CountdownEvent) : List RoundEvent :=
  hist.filterMap fun
    | .round e => some e
    | .claimed _ => none

/-- There was a countdown since the last reset. -/
def countdownOpen (hist : List CountdownEvent) : Bool :=
  hist.foldl (fun b e => match e with
    | .claimed _ => true
    | .round .reset => false
    | .round (.escaped _) => b) false

/-! ### Countdowns and rounds -/

/-- The thread is a round-end timer that has not reset the round yet. -/
def Thread.awaitsReset : Thread → Bool
  | .roundEndTimer (.reset pc) =>
    match pc with
    | .masterPurge _ | .users | .userPurge _ _ _ | .records | .market | .npcs | .round => true
    | _ => false
  | .roundEndTimer _ => true
  | _ => false

/-- A round with three escapes, or at the cap for the whole time of grace. -/
def RoundEarned (es : List Escapee) (now : ℕ) : Prop :=
  3 ≤ es.length ∨
    ∃ (i : ℕ) (e : Escapee), es[i]? = some e ∧ goalAfter (i + 1) = debtCap ∧
      e.time + capGraceSec ≤ now

/-- Every countdown belongs to the round that earned it. -/
structure CountdownsBelong (p : Server) (hist : List CountdownEvent) : Prop where
  /-- One timer at most is on its way to the reset, and none in a round without a countdown. -/
  oneTimer : p.threads.countP Thread.awaitsReset ≤ p.shared.round.endActive.toNat
  /-- No two resets happen for one countdown. -/
  oneReset : Along (fun before e => e = .round .reset → countdownOpen before = true) hist
  earned : Along (fun before e => ∀ now, e = .claimed now →
    RoundEarned (sinceReset (roundsOf before)) now) hist

/-! ### When it holds -/

/-- Why a thread is about to claim the round. -/
inductive Trigger where
  | escapes
  | cap
  | request
  deriving DecidableEq

/-- The reason is one that the round still has. -/
def Trigger.Earned (r : Round) (now : ℕ) : Trigger → Prop
  | escapes => 3 ≤ r.escapedCount
  | cap => r.capReachedAt ≠ 0 ∧ r.capReachedAt + capGraceSec ≤ now
  | request => False

/-- The trigger an escape holds, from the payoff that is the third. -/
def Payoff.trigger : Payoff → Option Trigger
  | .purge e _ _ _ | .update e _ _ | .victory e | .announce e | .goalUpdate e =>
    if 3 ≤ e.escapedNow then some .escapes else none
  | .roundEnd .claim => some .escapes
  | _ => none

/-- Why the thread is about to claim the round, if it is. -/
def Thread.trigger : Thread → Option Trigger
  | .session _ _ (.payoff pc) => pc.trigger
  | .session _ _ (.endround .claim) => some .request
  | .event _ (.roundEnd .claim) => some .cap
  | _ => none

/-- The operation resets the variables of the round. -/
def Op.resetsRound : Op → Bool
  | .roundReset => true
  | _ => false

/-- The operation reads a packet. -/
def Op.receives : Op → Bool
  | .packetRecv _ => true
  | _ => false

/-- The operation starts a thread. -/
def Op.createsThread : Op → Bool
  | .pthreadCreate _ => true
  | _ => false

/-- Threads are created, and nobody asks for the end of the round. -/
structure CountdownScope (p : Server) (l : Label) : Prop where
  created : ∀ o ∈ opAt p l, o.createsThread = true → (choiceOf l).ok = true
  noRequest : ∀ o ∈ opAt p l, o.receives = true → (choiceOf l).request ≠ some .triggerEndround

/-- The round is reset only while nobody is about to claim it, and nobody asks for its end. -/
structure CountdownGuard (p : Server) (l : Label) : Prop where
  settled : ∀ o ∈ opAt p l, o.resetsRound = true → ∀ u ∈ p.threads, u.trigger = none
  noRequest : ∀ o ∈ opAt p l, o.receives = true → (choiceOf l).request ≠ some .triggerEndround

instance (p : Server) (l : Label) : Decidable (CountdownScope p l) :=
  decidable_of_iff (_ ∧ _) ⟨fun h => ⟨h.1, h.2⟩, fun h => ⟨h.created, h.noRequest⟩⟩

instance (p : Server) (l : Label) : Decidable (CountdownGuard p l) :=
  decidable_of_iff (_ ∧ _) ⟨fun h => ⟨h.1, h.2⟩, fun h => ⟨h.settled, h.noRequest⟩⟩

/-! ### Who holds the countdown -/

/-- The countdown has claimed the end of the round. -/
def RoundEnd.holds : RoundEnd → Bool
  | .claim => false
  | _ => true

/-- The thread has claimed the round and has not handed it to a timer, or it is that timer. -/
def Thread.holds : Thread → Bool
  | .session _ _ (.payoff (.roundEnd pc)) | .session _ _ (.endround pc)
  | .event _ (.roundEnd pc) => pc.holds
  | th => th.awaitsReset

theorem holds_of_awaitsReset (h : th.awaitsReset = true) : th.holds = true := by
  cases th <;> first | exact h | cases h

/-- **What a step does** to the countdown. -/
inductive CountdownStep (s : Shared) (th : Thread) (o : Op) (s' : Shared) (th' : Thread)
    (new : List Thread) : Prop
  | keep (ho : o ≠ .roundEndClaim ∧ o ≠ .roundEndRelease ∧ o ≠ .roundReset)
      (hholds : th'.holds = th.holds) (hnew : ∀ u ∈ new, u.holds = false ∧ u.trigger = none)
      (htrigger : ∀ tr, th'.trigger = some tr →
        th.trigger = some tr ∨ tr.Earned s'.round s'.clock)
  | claim (ho : o = .roundEndClaim) (tr : Trigger) (htr : th.trigger = some tr)
      (hold : th.holds = false) (hholds : th'.holds = !s.round.endActive)
      (htrigger : th'.trigger = none) (hnew : new = [])
  | handOver (ho : o = .pthreadCreate .roundEndTimer) (hold : th.holds = true)
      (hholds : th'.holds = false) (htrigger : th'.trigger = none)
      (hnew : new = [.roundEndTimer .start])
  | done (ho : o = .roundEndRelease ∨ o = .roundReset) (hold : th.holds = true)
      (hholds : th'.holds = false) (htrigger : th'.trigger = none) (hnew : new = [])

/-! ### One step -/

/-- The operations of the countdown. -/
def Op.onCountdown : Op → Bool
  | .roundEndClaim | .roundEndRelease | .roundReset | .pthreadCreate .roundEndTimer => true
  | _ => false

/-- A thread started by another operation is at a point of no interest here. -/
theorem spawned_off {x : o.Ret} (ho : o.onCountdown = false) :
    ∀ u ∈ o.spawned x, u.holds = false ∧ u.trigger = none := by
  intro u hu
  cases o with
  | pthreadCreate n =>
    simp only [Op.spawned] at hu
    split_ifs at hu
    · obtain rfl := List.mem_singleton.1 hu
      cases n with
      | roundEndTimer => cases ho
      | _ => exact ⟨rfl, rfl⟩
    · cases hu
  | clientAdd sock =>
    simp only [Op.spawned] at hu
    split_ifs at hu
    · obtain rfl := List.mem_singleton.1 hu
      exact ⟨rfl, rfl⟩
    · cases hu
  | _ => cases hu

/-- A step that is none of the countdown's, to a point where nothing is held or about to be claimed
that was not before. -/
theorem countdown_off {x : o.Ret} (ho : o.onCountdown = false) (hholds : th'.holds = th.holds)
    (htrigger : ∀ tr, th'.trigger = some tr → th.trigger = some tr ∨ tr.Earned s'.round s'.clock) :
    CountdownStep s th o s' th' (o.spawned x) := by
  refine .keep ⟨?_, ?_, ?_⟩ hholds (spawned_off ho) htrigger <;> exact fun he => by
    rw [he] at ho
    cases ho

theorem purgeDocsIn_onCountdown (f : Folder) (pc : Purge) :
    (purgeDocsIn f pc).op.onCountdown = false := by
  cases pc <;> rfl

theorem sandboxList_onCountdown (pc : SandboxList) :
    (sandboxList key pc).op.onCountdown = false := by
  cases pc <;> rfl

theorem handleInventory_onCountdown (pc : Inventory) :
    (handleInventory sock key pc).op.onCountdown = false := by
  cases pc with
  | list q => exact sandboxList_onCountdown q
  | _ => rfl

theorem burnUserByKey_onCountdown (pc : Burn) : (burnUserByKey key pc).op.onCountdown = false := by
  cases pc with
  | purge q => exact purgeDocsIn_onCountdown _ q
  | _ => rfl

theorem firePublicLeak_onCountdown (pc : Leak) : (firePublicLeak pc).op.onCountdown = false := by
  cases pc <;> rfl

/-- The commands that can end a round. -/
def Command.endsRound : Command → Bool
  | .payoff _ | .endround _ => true
  | _ => false

theorem clientLoop_onCountdown {pc : Command} (h : pc.endsRound = false) :
    (clientLoop sock key pc).op.onCountdown = false := by
  cases pc with
  | payoff q => cases h
  | endround q => cases h
  | bankruptcy q => cases q <;> rfl
  | buy d q => cases q <;> rfl
  | sell n ds q => cases q <;> rfl
  | dispose d q => cases q <;> rfl
  | inventory q => exact handleInventory_onCountdown q
  | rumor k q =>
    cases q with
    | inventory q => exact handleInventory_onCountdown q
    | _ => rfl
  | minigame code q =>
    cases q with
    | burn serial q => exact burnUserByKey_onCountdown q
    | _ => rfl
  | selfRaid q => cases q <;> rfl
  | leak q => exact firePublicLeak_onCountdown q
  | fakeRich q =>
    cases q with
    | list rec q => exact sandboxList_onCountdown q
    | _ => rfl
  | _ => rfl

theorem eventThreadFunc_onCountdown {v : EventVars} {pc : Event} (h : ∀ q, pc ≠ .roundEnd q) :
    (eventThreadFunc v pc).op.onCountdown = false := by
  cases pc with
  | roundEnd q => exact absurd rfl (h q)
  | ageNpcs q => cases q <;> rfl
  | ageMarket q => cases q <;> rfl
  | raid q => cases q <;> rfl
  | leak q => exact firePublicLeak_onCountdown q
  | spawn q => cases q <;> rfl
  | _ => rfl

theorem triggerRoundReset_onCountdown {pc : Reset} (h : pc ≠ .round) :
    (triggerRoundReset pc).op.onCountdown = false := by
  cases pc with
  | round => exact absurd rfl h
  | masterPurge q => exact purgeDocsIn_onCountdown _ q
  | userPurge name todo q => exact purgeDocsIn_onCountdown _ q
  | seed q => cases q <;> rfl
  | _ => rfl

theorem lookupNext_ne_claim {escaped : List ScoreEscaped} {rank : List ScoreRemaining}
    {keys : List Key} : RoundEnd.lookupNext escaped rank keys ≠ .claim := by
  induction keys with
  | nil => exact nofun
  | cons key keys ih =>
    simp only [RoundEnd.lookupNext]
    split_ifs
    · exact ih
    · exact nofun

/-- The countdown itself, wherever it is called. -/
theorem fireRoundEndCountdown_step {text : Bytes} {pc : RoundEnd} {f : Next RoundEnd → Thread}
    {tr : Trigger} (hth : th.holds = pc.holds ∧ (pc = .claim → th.trigger = some tr))
    (hcont : ∀ pc', pc' ≠ .claim →
      (f (.cont pc')).holds = true ∧ (f (.cont pc')).trigger = none)
    (hret : (f (.ret ())).holds = false ∧ (f (.ret ())).trigger = none)
    {x : (fireRoundEndCountdown text pc).op.Ret}
    (hx : (fireRoundEndCountdown text pc).op.exec s c = some (s', x)) :
    CountdownStep s th (fireRoundEndCountdown text pc).op s'
      (f ((fireRoundEndCountdown text pc).next x))
      ((fireRoundEndCountdown text pc).op.spawned x) := by
  have hkeep : (fireRoundEndCountdown text pc).op.onCountdown = false → pc ≠ .claim →
      (∃ pc', pc' ≠ .claim ∧ (fireRoundEndCountdown text pc).next x = .cont pc') →
      CountdownStep s th (fireRoundEndCountdown text pc).op s'
        (f ((fireRoundEndCountdown text pc).next x))
        ((fireRoundEndCountdown text pc).op.spawned x) := by
    rintro ho hpc ⟨pc', hpc', hn⟩
    rw [hn]
    refine countdown_off ho ?_ fun t ht => ?_
    · rw [(hcont pc' hpc').1, hth.1]
      cases pc <;> first | rfl | exact absurd rfl hpc
    · rw [(hcont pc' hpc').2] at ht
      cases ht
  cases pc with
  | claim =>
    refine .claim rfl tr (hth.2 rfl) hth.1 ?_ ?_ rfl
    · by_cases hactive : s.round.endActive = true
      · simp only [fireRoundEndCountdown, Op.exec, if_pos hactive] at hx
        cases hx
        rw [hactive]
        exact hret.1
      · simp only [fireRoundEndCountdown, Op.exec, if_neg hactive] at hx
        cases hx
        rw [Bool.eq_false_iff.2 hactive]
        exact (hcont .log (by simp)).1
    · cases x
      · exact hret.2
      · exact (hcont .log (by simp)).2
  | timer =>
    cases x
    · obtain ⟨h₁, h₂⟩ := hcont .release (by simp)
      refine .keep (by simp [fireRoundEndCountdown]) (h₁.trans hth.1.symm) (by
        simp [fireRoundEndCountdown, Op.spawned]) fun t ht => ?_
      simp only [fireRoundEndCountdown, Bool.false_eq_true, if_false, h₂, reduceCtorEq] at ht
    · exact .handOver rfl hth.1 hret.1 hret.2 rfl
  | release => exact .done (.inl rfl) hth.1 hret.1 hret.2 rfl
  | log => exact hkeep rfl (by simp) ⟨_, by simp, rfl⟩
  | keys escaped => exact hkeep rfl (by simp) ⟨_, lookupNext_ne_claim, rfl⟩
  | lookup escaped k todo rank =>
    refine hkeep rfl (by simp) ?_
    rcases x with rec | ⟨rec, off⟩
    · exact ⟨_, lookupNext_ne_claim, rfl⟩
    · simp only [fireRoundEndCountdown]
      split_ifs
      · exact ⟨_, lookupNext_ne_claim, rfl⟩
      · exact ⟨_, lookupNext_ne_claim, rfl⟩
  | scoreboard escaped rank => exact hkeep rfl (by simp) ⟨_, by simp, rfl⟩
  | hint => exact hkeep rfl (by simp) ⟨_, by simp, rfl⟩

/-- Where a payoff goes on after an action of the countdown it starts. -/
def Payoff.afterRoundEnd : Next RoundEnd → Next Payoff
  | .cont pc => .cont (.roundEnd pc)
  | .ret () => .ret ()
  | .fail code reason => .fail code reason

/-- Where the timer goes on after an action of the reset. -/
def RoundEndTimer.afterReset : Next Reset → Next RoundEndTimer
  | .cont pc => .cont (.reset pc)
  | .ret () => .ret ()
  | .fail code reason => .fail code reason

/-- Where the event thread goes on after an action of the countdown it starts. -/
def Event.afterRoundEnd (v : EventVars) : Next RoundEnd → EventVars × Event
  | .cont pc => (v, .roundEnd pc)
  | _ => (v, .ageNpcs .despawn)

/-- The payoff: the third escape is counted, and claims the round at the end. -/
theorem handlePayoff_step {pc : Payoff}
    {x : (handlePayoff sock key pc).op.Ret}
    (hx : (handlePayoff sock key pc).op.exec s c = some (s', x)) :
    CountdownStep s (.session sock key (.payoff pc)) (handlePayoff sock key pc).op s'
      (match Command.resume .payoff false ((handlePayoff sock key pc).next x) with
        | .cont pc => .session sock key pc
        | _ => .disconnect sock .remove)
      ((handlePayoff sock key pc).op.spawned x) := by
  cases pc with
  | lookup => cases x <;> exact countdown_off rfl rfl (by rintro _ ⟨⟩)
  | commit rec off =>
    cases hx
    rcases roundPayoff_cases s.round s.clock key rec.money with
      ⟨-, hr⟩ | ⟨-, next, r', hcount, hr⟩
    · simp only [handlePayoff, hr]
      exact countdown_off rfl rfl (by rintro _ ⟨⟩)
    · simp only [handlePayoff, hr]
      refine countdown_off rfl rfl fun tr htr => .inr ?_
      simp only [Command.resume, Thread.trigger, Payoff.trigger] at htr
      split_ifs at htr with h3
      cases htr
      show 3 ≤ r'.escapedCount
      rwa [hcount]
  | purge e rec off q =>
    have hnext : ∃ pc', pc'.trigger = (Payoff.purge e rec off q).trigger ∧
        (∀ q, pc' ≠ .roundEnd q) ∧
        (handlePayoff sock key (.purge e rec off q)).next x = .cont pc' := by
      simp only [handlePayoff, Action.map]
      split
      · rename_i q' _
        exact ⟨.purge e rec off q', rfl, (by rintro _ ⟨⟩), rfl⟩
      · exact ⟨.update e rec off, rfl, (by rintro _ ⟨⟩), rfl⟩
    obtain ⟨pc', htr', hpc', hn⟩ := hnext
    rw [hn]
    refine countdown_off (purgeDocsIn_onCountdown _ q) ?_ fun tr htr => .inl (htr'.symm.trans htr)
    cases pc' <;> first | rfl | exact absurd rfl (hpc' _)
  | update e rec off => exact countdown_off rfl rfl fun tr htr => .inl htr
  | victory e => exact countdown_off rfl rfl fun tr htr => .inl htr
  | announce e => exact countdown_off rfl rfl fun tr htr => .inl htr
  | goalUpdate e =>
    simp only [handlePayoff]
    split_ifs with h3
    · refine countdown_off rfl rfl fun tr htr => .inl ?_
      cases htr
      exact if_pos h3
    · exact countdown_off rfl rfl (by rintro _ ⟨⟩)
  | roundEnd q =>
    have htr : q = .claim →
        (Thread.session sock key (.payoff (.roundEnd q))).trigger = some .escapes := by
      rintro rfl
      rfl
    refine fireRoundEndCountdown_step (f := fun n => Thread.afterCommand sock key
      (Command.resume .payoff false (Payoff.afterRoundEnd n))) ⟨rfl, htr⟩ (fun pc' hpc' => ?_)
      ⟨rfl, rfl⟩ hx
    cases pc' <;> first | exact ⟨rfl, rfl⟩ | exact absurd rfl hpc'

/-- Only a request leads to a countdown that nobody has earned. -/
theorem request_of_endround {pc : Command} (hpc : ∀ q, pc ≠ .endround q)
    (h : (clientLoop sock key pc).Steps s c s' (.cont (.endround .claim))) :
    pc = .recv ∧ c.request = some .triggerEndround := by
  cases pc with
  | recv =>
    obtain ⟨x, hx, hn⟩ := h
    cases hx
    refine ⟨rfl, ?_⟩
    rcases hreq : c.request with _ | req
    · simp [clientLoop, hreq] at hn
    · simp only [clientLoop, hreq, Next.cont.injEq] at hn
      cases req <;> simp only [Command.dispatch] at hn <;> (try split_ifs at hn) <;>
        first | rfl | cases hn
  | error code reason check =>
    obtain ⟨x, -, hn⟩ := h
    cases check <;> cases hn
  | chat text =>
    obtain ⟨x, -, hn⟩ := h
    cases hn
  | endround q => exact absurd rfl (hpc q)
  | bankruptcy q | leak q =>
    obtain ⟨n, -, hn⟩ := Action.steps_map.1 h
    rcases n with q' | (_ | _) | _ <;> cases hn
  | buy _ q | sell _ _ q | dispose _ q | inventory q | rumor _ q | payoff q | minigame _ q
  | selfRaid q | fakeRich q =>
    obtain ⟨n, -, hn⟩ := Action.steps_map.1 h
    rcases n with q' | _ | _ <;> simp only [Command.resume] at hn <;> (try split_ifs at hn) <;>
      cases hn

/-- The other commands hold nothing, and are not about to claim anything. -/
theorem clientLoop_step {pc : Command} (hpc : pc.endsRound = false)
    (hreq : (clientLoop sock key pc).op.receives = true → c.request ≠ some .triggerEndround)
    {n : Next Command} : (clientLoop sock key pc).Steps s c s' n →
    (match n with
      | .cont pc' => Thread.session sock key pc'
      | _ => .disconnect sock .remove).holds = false ∧
    (match n with
      | .cont pc' => Thread.session sock key pc'
      | _ => .disconnect sock .remove).trigger = none := by
  intro h
  rcases n with pc' | _ | _
  · have ho := session_origin h
    cases pc' with
    | payoff q' =>
      obtain ⟨rfl, -⟩ | ⟨q, rfl, -⟩ := ho
      · exact ⟨rfl, rfl⟩
      · cases hpc
    | endround q' =>
      obtain ⟨rfl, -⟩ | ⟨-, q, rfl, -⟩ := ho
      · have hne : ∀ q, pc ≠ .endround q := by
          rintro q rfl
          cases hpc
        obtain ⟨rfl, hr⟩ := request_of_endround hne h
        exact absurd hr (hreq rfl)
      · cases hpc
    | _ => exact ⟨rfl, rfl⟩
  · exact ⟨rfl, rfl⟩
  · exact ⟨rfl, rfl⟩

/-- The event loop claims the round when the time of grace is over. -/
theorem grace_of_roundEnd {v v' : EventVars} {pc : Event} {q : RoundEnd}
    (hpc : ∀ q, pc ≠ .roundEnd q) (h : (eventThreadFunc v pc).Steps s c s' (v', .roundEnd q)) :
    q = .claim ∧ Trigger.cap.Earned s'.round s'.clock := by
  cases pc with
  | roundEnd q => exact absurd rfl (hpc q)
  | cap =>
    obtain ⟨x, hx, hn⟩ := h
    cases hx
    simp only [eventThreadFunc, Prod.mk.injEq] at hn
    obtain ⟨-, hn⟩ := hn
    split_ifs at hn with hexp
    · cases hn
      simp only [Bool.and_eq_true, bne_iff_ne, decide_eq_true_eq] at hexp
      exact ⟨rfl, hexp⟩
  | ageNpcs q | ageMarket q | raid q | leak q | spawn q =>
    obtain ⟨n, -, hn⟩ := Action.steps_map.1 h
    rcases n with q' | _ | _ <;>
      simp only [Prod.mk.injEq, Event.afterSpawn, Event.afterNpc] at hn <;>
      (try split_ifs at hn) <;> cases hn.2
  | raidDue | leakDice | npcThread | raidSchedule now =>
    obtain ⟨x, -, hn⟩ := h
    simp only [eventThreadFunc, Prod.mk.injEq, Event.afterRaid, Event.afterNpc] at hn
    obtain ⟨-, hn⟩ := hn
    split_ifs at hn
  | _ =>
    obtain ⟨x, -, hn⟩ := h
    cases hn

/-- Before its own reset of the variables the timer waits for it; after it, it does not. -/
theorem awaitsReset_step {q : Reset} (hq : q ≠ .round) {n : Next Reset}
    (h : (triggerRoundReset q).Steps s c s' n) :
    (Thread.resume (fun q => .roundEndTimer (.reset q)) n).awaitsReset =
      (Thread.roundEndTimer (.reset q)).awaitsReset := by
  have huser : ∀ {todo : List Bytes},
      (Thread.roundEndTimer (.reset (Reset.userNext todo))).awaitsReset = true := by
    intro todo
    cases todo <;> rfl
  cases q with
  | round => exact absurd rfl hq
  | masterPurge q =>
    obtain ⟨m, -, rfl⟩ := Action.steps_map.1 h
    cases m <;> rfl
  | userPurge name todo q =>
    obtain ⟨m, -, rfl⟩ := Action.steps_map.1 h
    cases m
    · rfl
    · exact huser
    · exact huser
  | users =>
    obtain ⟨names, -, rfl⟩ := h
    exact huser
  | seed q =>
    obtain ⟨m, -, rfl⟩ := Action.steps_map.1 h
    cases m <;> rfl
  | marketSnapshot =>
    obtain ⟨slots, -, rfl⟩ := h
    cases slots <;> rfl
  | marketSend slot todo =>
    obtain ⟨-, -, rfl⟩ := h
    cases todo <;> rfl
  | npcSnapshot =>
    obtain ⟨npcs, -, rfl⟩ := h
    cases npcs <;> rfl
  | npcSend npc todo =>
    obtain ⟨-, -, rfl⟩ := h
    cases todo <;> rfl
  | _ =>
    obtain ⟨-, -, rfl⟩ := h
    rfl

/-- The timer holds the countdown until it resets the variables of the round. -/
theorem roundEndTimerThread_step {pc : RoundEndTimer}
    (hflag : (Thread.roundEndTimer pc).holds = true → s.round.endActive = true)
    {x : (roundEndTimerThread pc).op.Ret}
    (hx : (roundEndTimerThread pc).op.exec s c = some (s', x)) :
    CountdownStep s (.roundEndTimer pc) (roundEndTimerThread pc).op s'
      (Thread.resume .roundEndTimer ((roundEndTimerThread pc).next x))
      ((roundEndTimerThread pc).op.spawned x) := by
  have hnone : ∀ {n : Next RoundEndTimer}, (Thread.resume .roundEndTimer n).trigger = none := by
    intro n
    cases n <;> rfl
  have hkeep : (roundEndTimerThread pc).op.onCountdown = false →
      (Thread.resume .roundEndTimer ((roundEndTimerThread pc).next x)).holds =
        (Thread.roundEndTimer pc).holds →
      CountdownStep s (.roundEndTimer pc) (roundEndTimerThread pc).op s'
        (Thread.resume .roundEndTimer ((roundEndTimerThread pc).next x))
        ((roundEndTimerThread pc).op.spawned x) := by
    intro ho hholds
    refine countdown_off ho hholds fun tr htr => ?_
    rw [hnone] at htr
    cases htr
  cases pc with
  | start | sleep wake => exact hkeep rfl rfl
  | check =>
    cases hx
    refine hkeep rfl ?_
    simp only [roundEndTimerThread, hflag rfl, if_true]
    rfl
  | reset q =>
    by_cases hq : q = .round
    · subst hq
      exact .done (.inr rfl) rfl rfl rfl rfl
    · refine hkeep (triggerRoundReset_onCountdown hq)
        (Eq.trans ?_ (awaitsReset_step hq ⟨x, hx, rfl⟩))
      show (Thread.resume .roundEndTimer
        (RoundEndTimer.afterReset ((triggerRoundReset q).next x))).holds = _
      cases (triggerRoundReset q).next x <;> rfl

/-- **The step of a thread**, when nobody asks for the end of the round. -/
theorem countdown_step (ha : th.action = some a)
    (hreq : a.op.receives = true → c.request ≠ some .triggerEndround)
    (hflag : th.holds = true → s.round.endActive = true)
    {x : a.op.Ret} (hx : a.op.exec s c = some (s', x)) :
    CountdownStep s th a.op s' (a.next x) (a.op.spawned x) := by
  have h : a.Steps s c s' (a.next x) := ⟨x, hx, rfl⟩
  have hquiet : a.op.onCountdown = false → th.holds = false → th.trigger = none →
      (a.next x).holds = false ∧ (a.next x).trigger = none →
      CountdownStep s th a.op s' (a.next x) (a.op.spawned x) := by
    rintro ho hh - ⟨hh', htr'⟩
    refine countdown_off ho (hh'.trans hh.symm) fun tr htr => ?_
    rw [htr'] at htr
    cases htr
  cases th with
  | session sock key pc =>
    -- of the commands only a payoff and the request can start a countdown
    cases hpc : pc.endsRound
    · cases ha
      obtain ⟨n, hn, he⟩ := Action.steps_map.1 h
      refine hquiet (clientLoop_onCountdown hpc) ?_ ?_ ?_
      · cases pc <;> first | rfl | cases hpc
      · cases pc <;> first | rfl | cases hpc
      · rw [he]
        have hoff := clientLoop_step hpc hreq hn
        rcases n with pc' | _ | _ <;> exact hoff
    · cases ha
      cases pc with
      | payoff q => exact handlePayoff_step hx
      | endround q =>
        have htr : q = .claim →
            (Thread.session sock key (.endround q)).trigger = some .request := by
          rintro rfl
          rfl
        refine fireRoundEndCountdown_step
          (f := fun n => Thread.afterCommand sock key (Command.resume .endround false n))
          ⟨rfl, htr⟩ (fun pc' hpc' => ?_) ⟨rfl, rfl⟩ hx
        cases pc' <;> first | exact ⟨rfl, rfl⟩ | exact absurd rfl hpc'
      | _ => cases hpc
  | event v pc =>
    cases ha
    -- the event thread starts one after the grace period at the cap
    by_cases hpc : ∃ q, pc = .roundEnd q
    · obtain ⟨q, rfl⟩ := hpc
      have htr : q = .claim → (Thread.event v (.roundEnd q)).trigger = some .cap := by
        rintro rfl
        rfl
      refine fireRoundEndCountdown_step (f := fun n =>
        (fun p : EventVars × Event => .event p.1 p.2) (Event.afterRoundEnd v n))
        ⟨rfl, htr⟩ (fun pc' hpc' => ?_) ⟨rfl, rfl⟩ hx
      cases pc' <;> first | exact ⟨rfl, rfl⟩ | exact absurd rfl hpc'
    · rw [not_exists] at hpc
      obtain ⟨⟨v', pc'⟩, hn, he⟩ := Action.steps_map.1 h
      have hold : (Thread.event v pc).holds = false := by
        cases pc <;> first | rfl | exact absurd rfl (hpc _)
      rw [he]
      refine countdown_off (eventThreadFunc_onCountdown hpc) ?_ fun tr htr => .inr ?_
      · rw [hold]
        cases pc' with
        | roundEnd q =>
          obtain ⟨rfl, -⟩ := grace_of_roundEnd hpc hn
          rfl
        | _ => rfl
      · cases pc' with
        | roundEnd q =>
          obtain ⟨rfl, hearned⟩ := grace_of_roundEnd hpc hn
          cases htr
          exact hearned
        | _ => cases htr
  | roundEndTimer pc =>
    cases ha
    exact roundEndTimerThread_step hflag hx
  | main pc =>
    cases ha
    obtain ⟨n, -, he⟩ := Action.steps_map.1 h
    refine hquiet ?_ rfl rfl ?_
    · cases pc with
      | seed q => cases q <;> rfl
      | _ => rfl
    · rw [he]
      cases n <;> exact ⟨rfl, rfl⟩
  | login sock pc =>
    cases ha
    obtain ⟨n, -, he⟩ := Action.steps_map.1 h
    refine hquiet (by cases pc <;> rfl) rfl rfl ?_
    rw [he]
    rcases n with pc' | (_ | key) | _ <;> exact ⟨rfl, rfl⟩
  | disconnect sock pc =>
    cases ha
    obtain ⟨n, -, he⟩ := Action.steps_map.1 h
    refine hquiet (by cases pc <;> rfl) rfl rfl ?_
    rw [he]
    cases n <;> exact ⟨rfl, rfl⟩
  | npcSequence pc =>
    cases ha
    obtain ⟨n, -, he⟩ := Action.steps_map.1 h
    refine hquiet (by cases pc <;> rfl) rfl rfl ?_
    rw [he]
    cases n <;> exact ⟨rfl, rfl⟩
  | leakRecovery mask dur pc =>
    cases ha
    obtain ⟨n, -, he⟩ := Action.steps_map.1 h
    refine hquiet (by cases pc <;> rfl) rfl rfl ?_
    rw [he]
    cases n <;> exact ⟨rfl, rfl⟩
  | raidTimeout serial pc =>
    cases ha
    obtain ⟨n, -, he⟩ := Action.steps_map.1 h
    refine hquiet ?_ rfl rfl ?_
    · cases pc with
      | burn key todo q => exact burnUserByKey_onCountdown q
      | _ => rfl
    · rw [he]
      cases n <;> exact ⟨rfl, rfl⟩
  | finished => cases ha

/-! ### The record and the round -/

theorem roundsOf_append (hist ev : List CountdownEvent) :
    roundsOf (hist ++ ev) = roundsOf hist ++ roundsOf ev := List.filterMap_append

theorem roundsOf_events (s : Shared) (o : Op) :
    roundsOf (o.countdownEvents s) = o.roundEvents s := by
  cases o with
  | roundEndClaim =>
    simp only [Op.countdownEvents]
    split_ifs <;> rfl
  | roundPayoff key money =>
    simp only [Op.countdownEvents, roundsOf, List.filterMap_map]
    exact List.filterMap_some
  | _ => rfl

/-- One operation records one event at most. -/
theorem length_events (s : Shared) (o : Op) : (o.countdownEvents s).length ≤ 1 := by
  cases o with
  | roundEndClaim =>
    simp only [Op.countdownEvents]
    split_ifs <;> simp
  | roundPayoff key money =>
    simp only [Op.countdownEvents, Op.roundEvents, List.length_map]
    split <;> simp
  | roundReset => exact le_rfl
  | _ => exact Nat.zero_le 1

/-- What is recorded: an escape, the claim of a round without a countdown, or a reset. -/
theorem mem_events {e : CountdownEvent} (h : e ∈ o.countdownEvents s) :
    (∃ esc, e = .round (.escaped esc)) ∨
      (o = .roundEndClaim ∧ s.round.endActive = false ∧ e = .claimed s.clock) ∨
      (o = .roundReset ∧ e = .round .reset) := by
  cases o with
  | roundEndClaim =>
    simp only [Op.countdownEvents] at h
    split_ifs at h with hactive
    · cases h
    · exact .inr (.inl ⟨rfl, by simpa using hactive, List.mem_singleton.1 h⟩)
  | roundPayoff key money =>
    simp only [Op.countdownEvents, Op.roundEvents] at h
    split at h
    · exact .inl ⟨_, List.mem_singleton.1 h⟩
    · cases h
  | roundReset => exact .inr (.inr ⟨rfl, List.mem_singleton.1 h⟩)
  | _ => cases h

/-- A countdown is open until the next reset. -/
theorem countdownOpen_append {hist ev : List CountdownEvent} (h : countdownOpen hist = true)
    (hev : .round .reset ∉ ev) : countdownOpen (hist ++ ev) = true := by
  induction ev using List.reverseRecOn with
  | nil => rwa [List.append_nil]
  | append_singleton ev e ih =>
    rw [List.mem_append, not_or] at hev
    have hopen := ih hev.1
    rw [← List.append_assoc, countdownOpen, List.foldl_concat]
    rcases e with (esc | _) | now
    · exact hopen
    · exact absurd (List.mem_singleton.2 rfl) hev.2
    · rfl

/-- A record that grows by one event at most. -/
theorem Along.grow {E : Type*} {Q : List E → E → Prop} {hist ev : List E} (h : Along Q hist)
    (hlen : ev.length ≤ 1) (hev : ∀ e ∈ ev, Q hist e) : Along Q (hist ++ ev) := by
  refine h.append fun pre e post heq => ?_
  rw [heq, List.length_append, List.length_cons] at hlen
  obtain rfl : pre = [] := List.length_eq_zero_iff.1 (by omega)
  rw [List.append_nil]
  exact hev e (heq ▸ List.mem_cons_self)

/-- Time passes, and only a reset takes the reason for a countdown away. -/
theorem Trigger.Earned.mono {tr : Trigger} (h : tr.Earned s.round s.clock)
    (hstep : RoundStep s o s') (ho : o ≠ .roundReset) (hclock : s.clock ≤ s'.clock) :
    tr.Earned s'.round s'.clock := by
  have hsame : s'.round.escapedCount = s.round.escapedCount ∧
      s'.round.capReachedAt = s.round.capReachedAt → tr.Earned s'.round s'.clock := by
    rintro ⟨hcount, hcap⟩
    cases tr with
    | escapes =>
      show 3 ≤ s'.round.escapedCount
      rw [hcount]
      exact h
    | cap => exact ⟨hcap.symm ▸ h.1, by rw [hcap]; exact h.2.trans hclock⟩
    | request => exact h
  cases hstep with
  | same _ hround | busy _ _ hround => exact hsame (by rw [hround]; exact ⟨rfl, rfl⟩)
  | claim _ _ hround | release _ hround => exact hsame (by rw [hround]; exact ⟨rfl, rfl⟩)
  | reset hreset hround => exact absurd hreset ho
  | payoff key money _ hround =>
    by_cases hm : money < s.round.goalMoney
    · exact hsame (by rw [hround, roundPayoff, if_pos hm]; exact ⟨rfl, rfl⟩)
    · rw [roundPayoff, if_neg hm] at hround
      cases tr with
      | escapes =>
        rw [hround]
        exact h.trans (Nat.le_succ _)
      | cap =>
        have hcap : s'.round.capReachedAt = s.round.capReachedAt := by
          rw [hround]
          exact if_neg fun hif => h.1 hif.2
        exact ⟨hcap.symm ▸ h.1, by rw [hcap]; exact h.2.trans hclock⟩
      | request => exact h

/-- The flag of the countdown is written by its own operations. -/
theorem endActive_of_round (hstep : RoundStep s o s')
    (ho : o ≠ .roundEndClaim ∧ o ≠ .roundEndRelease ∧ o ≠ .roundReset) :
    s'.round.endActive = s.round.endActive := by
  cases hstep with
  | same _ hround => rw [hround]
  | payoff key money _ hround =>
    rw [hround]
    rcases roundPayoff_cases s.round s.clock key money with ⟨-, hr⟩ | ⟨hm, -⟩
    · rw [hr]
    · rw [roundPayoff, if_neg (not_lt.2 hm)]
  | busy h | claim h => exact absurd h ho.1
  | release h => exact absurd h ho.2.1
  | reset h => exact absurd h ho.2.2

/-- After the claim the flag is set, by this caller or by another. -/
theorem endActive_of_claim (hstep : RoundStep s o s') (ho : o = .roundEndClaim) :
    s'.round.endActive = true := by
  subst ho
  cases hstep with
  | busy _ hactive hround => rw [hround, hactive]
  | claim _ _ hround => rw [hround]
  | same hst => exact absurd rfl hst
  | payoff _ _ he | release he | reset he => cases he

theorem endActive_of_done (hstep : RoundStep s o s') (ho : o = .roundEndRelease ∨ o = .roundReset) :
    s'.round.endActive = false := by
  rcases ho with rfl | rfl
  · cases hstep with
    | release _ hround => rw [hround]
    | same hst => exact absurd rfl hst
    | payoff _ _ he | busy he | claim he | reset he => cases he
  · cases hstep with
    | reset _ hround => rw [hround]
    | same hst => exact absurd rfl hst
    | payoff _ _ he | busy he | claim he | release he => cases he

/-- What a thread has noticed of the variables, the escapes show. -/
theorem RoundOk.earned {es : List Escapee} (h : RoundOk r es) {tr : Trigger}
    (htr : tr.Earned r now) : RoundEarned es now := by
  cases tr with
  | escapes => exact .inl (h.count ▸ htr)
  | request => exact htr.elim
  | cap =>
    obtain ⟨hne, hgrace⟩ := htr
    have hcap : goalAfter es.length = debtCap := h.goal ▸ h.cap.1 hne
    have hex : ∃ n, goalAfter n = debtCap := ⟨_, hcap⟩
    have hle : Nat.find hex ≤ es.length := Nat.find_min' hex hcap
    have hpos : 0 < Nat.find hex := by
      rw [Nat.pos_iff_ne_zero]
      intro hzero
      have hfind := Nat.find_spec hex
      rw [hzero] at hfind
      exact absurd hfind (by decide)
    -- the escape that reached the cap
    obtain ⟨i, hi⟩ := Nat.exists_eq_succ_of_ne_zero hpos.ne'
    have hlt : i < es.length := by omega
    have hreach : goalAfter (i + 1) = debtCap := by
      have hfind := Nat.find_spec hex
      rwa [hi] at hfind
    refine .inr ⟨i, es[i], List.getElem?_eq_getElem hlt, hreach, ?_⟩
    have htime := h.capTime i es[i] (List.getElem?_eq_getElem hlt) hreach fun j hj =>
      Nat.find_min hex (by omega)
    rwa [← htime]

/-! ### Runs -/

/-- The threads, the flag, the record and the variables of the round. -/
structure CountdownInv (p : Server) (hist : List CountdownEvent) : Prop where
  clock : p.shared.clock ≠ 0
  round : RoundOk p.shared.round (sinceReset (roundsOf hist))
  /-- The flag is set while one thread holds the countdown. -/
  holders : p.threads.countP Thread.holds = p.shared.round.endActive.toNat
  triggers : ∀ u ∈ p.threads, ∀ tr, u.trigger = some tr →
    tr.Earned p.shared.round p.shared.clock
  opened : p.shared.round.endActive = true → countdownOpen hist = true
  oneReset : Along (fun before e => e = .round .reset → countdownOpen before = true) hist
  earned : Along (fun before e => ∀ now, e = .claimed now →
    RoundEarned (sinceReset (roundsOf before)) now) hist

theorem countdownInv_boot (cwd : Dir) (files : Files) (users : UserDb) {clock : ℕ}
    (hclock : clock ≠ 0) : CountdownInv (boot cwd files users clock) [] where
  clock := hclock
  round := roundOk_nil
  holders := rfl
  triggers u hu tr htr := by
    obtain rfl := List.mem_singleton.1 hu
    cases htr
  opened := nofun
  oneReset := along_nil
  earned := along_nil

theorem CountdownInv.active_of_holds {p : Server} {hist : List CountdownEvent} {t : ℕ}
    (h : CountdownInv p hist) (hth : p.threads[t]? = some th) (hh : th.holds = true) :
    p.shared.round.endActive = true := by
  have hpos : 0 < p.threads.countP Thread.holds :=
    List.countP_pos_iff.2 ⟨th, List.mem_of_getElem? hth, hh⟩
  rw [h.holders] at hpos
  cases hactive : p.shared.round.endActive
  · rw [hactive] at hpos
    cases hpos
  · rfl

/-- **One operation** of a thread keeps the invariant under the guard. -/
theorem countdownInv_run {p p' : Server} {hist : List CountdownEvent} {t : ℕ}
    (h : CountdownInv p hist) (hG : CountdownGuard p (.run t c))
    (hn : server.next p (.run t c) = some p') :
    CountdownInv p' (hist ++ countdownEventsAt p (.run t c)) := by
  obtain ⟨th, a, x, hth, ha, hx, hthreads⟩ := server_run hn
  have hop := opAt_run (c := c) hth ha
  have hev : countdownEventsAt p (.run t c) = a.op.countdownEvents p.shared := by
    rw [countdownEventsAt, hop]
    rfl
  have hstep := countdown_step ha (hG.noRequest a.op hop) (h.active_of_holds hth) hx
  have hround := round_step hx
  have hclock : p'.shared.clock = p.shared.clock := (exec_frame hx).clock
  have hmem : th ∈ p.threads := List.mem_of_getElem? hth
  -- the flag counts the threads that hold it: one if it is set, none otherwise
  have hcount : p'.threads.countP Thread.holds + th.holds.toNat =
      p.shared.round.endActive.toNat + (a.next x).holds.toNat +
        (a.op.spawned x).countP Thread.holds := by
    rw [hthreads, Pool.countP_step hth, h.holders]
  rw [hev]
  refine ⟨by rw [hclock]; exact h.clock, ?_, ?_, ?_, ?_, ?_, ?_⟩
  · rw [roundsOf_append, roundsOf_events]
    exact h.round.step h.clock hround
  · cases hstep with
    | keep ho hholds hnew _ =>
      have hzero : (a.op.spawned x).countP Thread.holds = 0 :=
        List.countP_eq_zero.2 fun u hu => by rw [(hnew u hu).1]; exact Bool.false_ne_true
      rw [endActive_of_round hround ho]
      rw [hholds, hzero] at hcount
      omega
    | claim ho tr _ hold hholds _ hnew =>
      rw [hnew, hold, hholds, List.countP_nil] at hcount
      rw [endActive_of_claim hround ho]
      cases hactive : p.shared.round.endActive <;> rw [hactive] at hcount <;> simpa using hcount
    | handOver ho hold hholds _ hnew =>
      rw [hnew, hold, hholds] at hcount
      rw [endActive_of_round hround (by rw [ho]; exact ⟨nofun, nofun, nofun⟩)]
      simpa [List.countP_singleton, Thread.holds, Thread.awaitsReset] using hcount
    | done ho hold hholds _ hnew =>
      rw [hnew, hold, hholds, h.active_of_holds hth hold, List.countP_nil] at hcount
      rw [endActive_of_done hround ho]
      simpa using hcount
  · intro u hu tr htr
    -- what another thread has noticed is still so, unless this is a reset
    have hother : ∀ v ∈ p.threads, v.trigger = some tr → a.op ≠ .roundReset →
        tr.Earned p'.shared.round p'.shared.clock := fun v hv hvtr ho =>
      (h.triggers v hv tr hvtr).mono hround ho hclock.ge
    -- a trigger that outlives a reset is what the guard excludes
    have hreset : a.op = .roundReset → ∀ v ∈ p.threads, v.trigger = none := fun ho =>
      hG.settled a.op hop (by rw [ho]; rfl)
    obtain ⟨j, hj⟩ := List.getElem?_of_mem hu
    rw [hthreads] at hj
    rcases Pool.getElem?_step hj with ⟨-, hj⟩ | ⟨-, rfl⟩ | hnew
    · have hju := List.mem_of_getElem? hj
      by_cases ho : a.op = .roundReset
      · rw [hreset ho u hju] at htr
        cases htr
      · exact hother u hju htr ho
    · cases hstep with
      | keep ho _ _ htrigger =>
        rcases htrigger tr htr with hold | hnew
        · exact hother th hmem hold ho.2.2
        · exact hnew
      | claim _ _ _ _ _ hnone | handOver _ _ _ hnone | done _ _ _ hnone =>
        rw [hnone] at htr
        cases htr
    · cases hstep with
      | keep _ _ hnone =>
        rw [(hnone u hnew).2] at htr
        cases htr
      | handOver _ _ _ _ hu =>
        rw [hu] at hnew
        obtain rfl := List.mem_singleton.1 hnew
        cases htr
      | claim _ _ _ _ _ _ hu | done _ _ _ _ hu =>
        rw [hu] at hnew
        cases hnew
  · intro hactive'
    have hopen : p.shared.round.endActive = true → a.op ≠ .roundReset →
        countdownOpen (hist ++ a.op.countdownEvents p.shared) = true := by
      refine fun hactive ho => countdownOpen_append (h.opened hactive) fun hmem => ?_
      rcases mem_events hmem with ⟨esc, he⟩ | ⟨-, -, he⟩ | ⟨hreset, -⟩
      · cases he
      · cases he
      · exact ho hreset
    cases hstep with
    | keep ho =>
      rw [endActive_of_round hround ho] at hactive'
      exact hopen hactive' ho.2.2
    | handOver ho hold =>
      exact hopen (h.active_of_holds hth hold) (by rw [ho]; exact nofun)
    | done ho =>
      rw [endActive_of_done hround ho] at hactive'
      cases hactive'
    | claim ho =>
      -- a claim that came second finds the countdown open
      cases hactive : p.shared.round.endActive
      · have hclaimed : a.op.countdownEvents p.shared = [.claimed p.shared.clock] := by
          rw [ho]
          simp [Op.countdownEvents, hactive]
        rw [hclaimed, countdownOpen, List.foldl_concat]
      · exact hopen hactive (by rw [ho]; exact nofun)
  · refine h.oneReset.grow (length_events _ _) fun e he hreset => ?_
    subst hreset
    rcases mem_events he with ⟨esc, hesc⟩ | ⟨-, -, hcl⟩ | ⟨ho, -⟩
    · cases hesc
    · cases hcl
    · cases hstep with
      | done _ hold => exact h.opened (h.active_of_holds hth hold)
      | keep hk => exact absurd ho hk.2.2
      | claim hk | handOver hk =>
        rw [hk] at ho
        cases ho
  · refine h.earned.grow (length_events _ _) fun e he now hclaimed => ?_
    subst hclaimed
    rcases mem_events he with ⟨esc, hesc⟩ | ⟨ho, -, hcl⟩ | ⟨-, hreset⟩
    · cases hesc
    · cases hcl
      cases hstep with
      | claim _ tr htr => exact h.round.earned (h.triggers th hmem tr htr)
      | keep hk => exact absurd ho hk.1
      | handOver hk =>
        rw [hk] at ho
        cases ho
      | done hk =>
        rw [ho] at hk
        rcases hk with hk | hk <;> cases hk
    · cases hreset

theorem CountdownInv.belong {p : Server} {hist : List CountdownEvent} (h : CountdownInv p hist) :
    CountdownsBelong p hist where
  oneTimer := h.holders ▸ List.countP_mono_left fun _ _ hu => holds_of_awaitsReset hu
  oneReset := h.oneReset
  earned := h.earned

/-- **A countdown belongs to the round that earned it**, in every guarded run from any data
directory, at any time but `0`; no thread has to be started successfully for that. -/
theorem countdownsBelong_of_guard {cwd : Dir} {files : Files} {users : UserDb} {clock : ℕ}
    (hclock : clock ≠ 0) {p : Server} {hist : List CountdownEvent}
    (h : countdownServer.Reach (fun q l => CountdownGuard q.1 l) (boot cwd files users clock, [])
      (p, hist)) : CountdownsBelong p hist := by
  have hinv : CountdownInv p hist := by
    refine h.invariant (I := fun q => CountdownInv q.1 q.2)
      (countdownInv_boot cwd files users hclock) ?_
    rintro ⟨p, hist⟩ l ⟨p', hist'⟩ - hI hG hn
    obtain ⟨hn, rfl⟩ := System.withHistory_next.1 hn
    cases l with
    | run t c => exact countdownInv_run hI hG hn
    | env seconds =>
      obtain rfl := Pool.next_env.1 hn
      have htime : p.shared.clock ≤ p.shared.clock + seconds := Nat.le_add_right _ _
      have hev : hist ++ countdownEventsAt p (.env seconds) = hist := List.append_nil _
      refine ⟨?_, hev.symm ▸ hI.round, hI.holders, fun u hu tr htr => ?_, hev.symm ▸ hI.opened,
        hev.symm ▸ hI.oneReset, hev.symm ▸ hI.earned⟩
      · exact fun hzero => hI.clock (Nat.eq_zero_of_add_eq_zero_right hzero)
      · have hold := hI.triggers u hu tr htr
        cases tr with
        | escapes => exact hold
        | cap => exact ⟨hold.1, hold.2.trans htime⟩
        | request => exact hold
  exact hinv.belong

/-! ### The race -/

/-- The player fills the purse and pays off, up to and with the escape. -/
def escapes (t : ℕ) : List Label :=
  receive t .triggerRich :: steps t 6 ++ receive t (.chat (utf8 "/payoff")) :: steps t 2

/-- Alice escapes three times, and the third time starts the countdown; after more has happened and
a minute has passed, its timer resets the round. -/
def countdownScript (more : List Label) : List Label :=
  startUp ++ connect 5 ++ connect 6 ++ logIn 2 (Key.ofBytes (utf8 "alice")) ++
    logIn 3 (Key.ofBytes (utf8 "bob")) ++ escapes 2 ++ steps 2 5 ++ escapes 2 ++ steps 2 5 ++
    escapes 2 ++ steps 2 12 ++ steps 4 1 ++ more ++ .env 60 :: steps 4 14

/-- A guarded run with three escapes, the countdown and the reset. -/
theorem countdownsBelong_alice : ∃ q,
    countdownServer.Reach (fun q l => CountdownGuard q.1 l) (freshBoot, []) q ∧ q.2.length = 5 ∧
      CountdownsBelong q.1 q.2 := by
  obtain ⟨q, hq, hlen⟩ := System.exists_reach_of_any (A := countdownServer)
    (fun q l => CountdownGuard q.1 l) (freshBoot, []) (countdownScript [])
    (fun q => q.2.length == 5) (by decide +kernel)
  exact ⟨q, hq, eq_of_beq hlen, countdownsBelong_of_guard (by decide) hq⟩

/-- The record ends with the claim of a round in which nobody has escaped. -/
def claimsFresh (hist : List CountdownEvent) : Bool :=
  match hist.getLast? with
  | some (.claimed _) => (sinceReset (roundsOf hist.dropLast)).isEmpty
  | _ => false

/-- Bob's escape, the fourth of the round, is counted before the reset and starts a countdown after
it. -/
theorem not_countdownsBelong : ∃ q,
    countdownServer.Reach (fun q l => CountdownScope q.1 l) (freshBoot, []) q ∧
      ¬ CountdownsBelong q.1 q.2 := by
  obtain ⟨q, hq, hfresh⟩ := System.exists_reach_of_any (A := countdownServer)
    (fun q l => CountdownScope q.1 l) (freshBoot, []) (countdownScript (escapes 3) ++ steps 3 6)
    (fun q => claimsFresh q.2) (by decide +kernel)
  refine ⟨q, hq, fun h => ?_⟩
  simp only [claimsFresh] at hfresh
  split at hfresh
  · rename_i now hlast
    rw [List.isEmpty_iff] at hfresh
    have hhist : q.2 = q.2.dropLast ++ .claimed now :: [] :=
      (List.dropLast_append_getLast? _ hlast).symm
    have hearned := h.earned _ _ _ hhist now rfl
    rw [hfresh] at hearned
    rcases hearned with hlen | ⟨i, e, he, -⟩
    · cases hlen
    · cases he
  · cases hfresh

end UnderFlow
