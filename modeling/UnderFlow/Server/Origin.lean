import UnderFlow.Server.Footprint

/-!
# Where a thread came from

Backward inversion of the step: the point a thread is at after a step tells the handler it ran in,
and that it either ran the handler or has just entered it.

* `thread_origin` : for the threads.
* `session_origin` : for the commands of a session.
* `event_origin` : for the parts of the event loop.
-/

namespace UnderFlow

variable {s s' : Shared} {c : Choice}

/-- How a thread got to a point by a step from `s` to `s'`: it was inside the same program, or has
just entered it. -/
def Thread.Origin (s : Shared) (c : Choice) (s' : Shared) (th : Thread) : Thread → Prop
  | .main pc' => ∃ pc, th = .main pc ∧ (mainThread pc).Steps s c s' (.cont pc')
  | .login sock pc' => ∃ pc, th = .login sock pc ∧ (clientLogin sock pc).Steps s c s' (.cont pc')
  | .session sock key pc' =>
    (∃ pc, th = .session sock key pc ∧ (clientLoop sock key pc).Steps s c s' (.cont pc')) ∨
    (pc' = .recv ∧ ∃ pc, th = .login sock pc ∧ (clientLogin sock pc).Steps s c s' (.ret (some key)))
  | .disconnect sock pc' =>
    (∃ pc, th = .disconnect sock pc ∧ (clientDisconnect sock pc).Steps s c s' (.cont pc')) ∨
    (pc' = .remove ∧ ((∃ pc, th = .login sock pc) ∨ ∃ key pc, th = .session sock key pc))
  | .event v' pc' => ∃ v pc, th = .event v pc ∧ (eventThreadFunc v pc).Steps s c s' (v', pc')
  | .npcSequence pc' =>
    ∃ pc, th = .npcSequence pc ∧ (eventDoNpcSequence pc).Steps s c s' (.cont pc')
  | .leakRecovery mask dur pc' =>
    ∃ pc, th = .leakRecovery mask dur pc ∧ (leakRecoveryThread mask dur pc).Steps s c s' (.cont pc')
  | .raidTimeout serial pc' =>
    ∃ pc, th = .raidTimeout serial pc ∧ (periodicRaidTimeoutThread pc).Steps s c s' (.cont pc')
  | .roundEndTimer pc' =>
    ∃ pc, th = .roundEndTimer pc ∧ (roundEndTimerThread pc).Steps s c s' (.cont pc')
  | .finished => True

theorem thread_origin {th th' : Thread} {a : Action Thread} (ha : th.action = some a)
    (h : a.Steps s c s' th') : Thread.Origin s c s' th th' := by
  cases th with
  | main pc | npcSequence pc | leakRecovery mask dur pc | raidTimeout serial pc | roundEndTimer pc
  | disconnect sock pc =>
    cases ha
    obtain ⟨n, hn, rfl⟩ := Action.steps_map.1 h
    rcases n with pc' | _ | _ <;> simp_all [Thread.resume, Thread.Origin]
  | event v pc =>
    cases ha
    obtain ⟨n, hn, rfl⟩ := Action.steps_map.1 h
    exact ⟨v, pc, rfl, hn⟩
  | login sock pc =>
    cases ha
    obtain ⟨n, hn, rfl⟩ := Action.steps_map.1 h
    rcases n with pc' | (_ | key) | _
    · exact ⟨pc, rfl, hn⟩
    · exact .inr ⟨rfl, .inl ⟨pc, rfl⟩⟩
    · exact .inr ⟨rfl, pc, rfl, hn⟩
    · exact .inr ⟨rfl, .inl ⟨pc, rfl⟩⟩
  | session sock key pc =>
    cases ha
    obtain ⟨n, hn, rfl⟩ := Action.steps_map.1 h
    rcases n with pc' | _ | _
    · exact .inl ⟨pc, rfl, hn⟩
    · exact .inr ⟨rfl, .inr ⟨key, pc, rfl⟩⟩
    · exact .inr ⟨rfl, .inr ⟨key, pc, rfl⟩⟩
  | finished => cases ha

/-- How a session got to a command by a step from `s` to `s'`. -/
def Command.Origin (sock : ℕ) (key : Key) (s : Shared) (c : Choice) (s' : Shared) (pc : Command) :
    Command → Prop
  | .recv => True
  | .error _ _ _ => True
  | .bankruptcy q' =>
    q' = .lookup ∨ ∃ q, pc = .bankruptcy q ∧ (checkBankruptcy sock key q).Steps s c s' (.cont q')
  | .buy d q' => (q' = .find ∧ s' = s) ∨
    ∃ q, pc = .buy d q ∧ (handleBuy sock key d q).Steps s c s' (.cont q')
  | .sell n ds q' => (q' = .findNpc ∧ s' = s) ∨
    ∃ q, pc = .sell n ds q ∧ (handleSell sock key n ds q).Steps s c s' (.cont q')
  | .dispose d q' => (q' = .has ∧ s' = s) ∨
    ∃ q, pc = .dispose d q ∧ (handleDispose sock key d q).Steps s c s' (.cont q')
  | .inventory q' => (q' = .list .opendir ∧ s' = s) ∨
    ∃ q, pc = .inventory q ∧ (handleInventory sock key q).Steps s c s' (.cont q')
  | .rumor k q' => (q' = .enter ∧ s' = s) ∨
    ∃ q, pc = .rumor k q ∧ (handleRumor sock key k q).Steps s c s' (.cont q')
  | .payoff q' => (q' = .lookup ∧ s' = s) ∨
    ∃ q, pc = .payoff q ∧ (handlePayoff sock key q).Steps s c s' (.cont q')
  | .chat _ => s' = s
  | .minigame code q' => (q' = .lookup ∧ s' = s) ∨
    ∃ q, pc = .minigame code q ∧ (handleMinigameSubmit sock key code q).Steps s c s' (.cont q')
  | .selfRaid q' => (q' = .launch ∧ s' = s) ∨
    ∃ q, pc = .selfRaid q ∧ (fireSelfPoliceRaid sock key q).Steps s c s' (.cont q')
  | .leak q' => (q' = .mask ∧ s' = s) ∨
    ∃ q, pc = .leak q ∧ (firePublicLeak q).Steps s c s' (.cont q')
  | .fakeRich q' => (q' = .lookup ∧ s' = s) ∨
    ∃ q, pc = .fakeRich q ∧ (handleFakeRich sock key q).Steps s c s' (.cont q')
  | .endround q' => (q' = .claim ∧ s' = s) ∨
    ∃ text q, pc = .endround q ∧ (fireRoundEndCountdown text q).Steps s c s' (.cont q')

theorem session_origin {sock : ℕ} {key : Key} {pc pc' : Command}
    (h : (clientLoop sock key pc).Steps s c s' (.cont pc')) :
    Command.Origin sock key s c s' pc pc' := by
  cases pc with
  | recv =>
    obtain ⟨r, hr, hn⟩ := h
    cases hr
    rcases hreq : c.request with _ | req
    · simp [clientLoop, hreq] at hn
    · simp only [clientLoop, hreq, Next.cont.injEq] at hn
      subst hn
      cases req <;> simp only [Command.dispatch] <;> (try split_ifs) <;> simp [Command.Origin]
  | error code reason check =>
    obtain ⟨r, -, hn⟩ := h
    simp only [clientLoop, Next.cont.injEq] at hn
    subst hn
    cases check <;> simp [Command.Origin]
  | chat text =>
    obtain ⟨r, -, hn⟩ := h
    simp only [clientLoop, Next.cont.injEq] at hn
    subst hn
    trivial
  | bankruptcy q =>
    obtain ⟨n, hn, he⟩ := Action.steps_map.1 h
    rcases n with q' | (_ | _) | _ <;> simp only [Next.cont.injEq, reduceCtorEq] at he <;> subst he
    · exact .inr ⟨q, rfl, hn⟩
    · trivial
    · trivial
  | leak q =>
    obtain ⟨n, hn, he⟩ := Action.steps_map.1 h
    rcases n with q' | (_ | _) | _ <;> simp only [Next.cont.injEq] at he <;> subst he
    · exact .inr ⟨q, rfl, hn⟩
    · trivial
    · trivial
    · trivial
  | buy _ q | sell _ _ q | dispose _ q | inventory q | rumor _ q | payoff q | minigame _ q
  | selfRaid q | fakeRich q =>
    obtain ⟨n, hn, he⟩ := Action.steps_map.1 h
    rcases n with q' | _ | _ <;> simp only [Command.resume, Next.cont.injEq] at he <;> subst he
    · exact .inr ⟨q, rfl, hn⟩
    · split_ifs <;> simp [Command.Origin]
    · trivial
  | endround q =>
    obtain ⟨n, hn, he⟩ := Action.steps_map.1 h
    rcases n with q' | _ | _ <;> simp only [Command.resume, Next.cont.injEq] at he <;> subst he
    · exact .inr ⟨_, q, rfl, hn⟩
    · trivial
    · trivial

/-- How the event loop got to a point by a step from `s` to `s'`. -/
def Event.Origin (s : Shared) (c : Choice) (s' : Shared) (pc : Event) :
    Event → Prop
  | .roundEnd q' => (q' = .claim ∧ s' = s) ∨
    ∃ text q, pc = .roundEnd q ∧ (fireRoundEndCountdown text q).Steps s c s' (.cont q')
  | .ageNpcs q' => q' = .despawn ∨ ∃ q, pc = .ageNpcs q ∧ (eventAgeNpcs q).Steps s c s' (.cont q')
  | .ageMarket q' => q' = .despawn ∨
    ∃ q, pc = .ageMarket q ∧ (eventAgeMarket q).Steps s c s' (.cont q')
  | .raid q' => q' = .launch ∨
    ∃ q, pc = .raid q ∧ (firePeriodicPoliceRaid q).Steps s c s' (.cont q')
  | .leak q' => q' = .mask ∨ ∃ q, pc = .leak q ∧ (firePublicLeak q).Steps s c s' (.cont q')
  | .spawn q' => q' = .full ∨ ∃ q, pc = .spawn q ∧ (eventSpawnMarket q).Steps s c s' (.cont q')
  | _ => True

theorem origin_afterSpawn {v : EventVars} {pc : Event} :
    Event.Origin s c s' pc (Event.afterSpawn v) := by
  unfold Event.afterSpawn Event.afterNpc
  split_ifs <;> trivial

theorem origin_afterRaid {v : EventVars} {pc : Event} :
    Event.Origin s c s' pc (Event.afterRaid v) := by
  unfold Event.afterRaid
  split_ifs
  · trivial
  · exact .inl rfl

theorem event_origin {v v' : EventVars} {pc pc' : Event}
    (h : (eventThreadFunc v pc).Steps s c s' (v', pc')) : Event.Origin s c s' pc pc' := by
  cases pc with
  | roundEnd q | ageNpcs q | ageMarket q | raid q | leak q | spawn q =>
    obtain ⟨n, hn, he⟩ := Action.steps_map.1 h
    rcases n with q' | _ | _ <;> simp only [Prod.mk.injEq] at he <;> obtain ⟨-, rfl⟩ := he <;>
      first
        | exact .inr ⟨q, rfl, hn⟩
        | exact .inr ⟨_, q, rfl, hn⟩
        | exact origin_afterSpawn
        | exact .inl rfl
        | trivial
  | raidDue =>
    simp only [eventThreadFunc, Action.steps_mk, Prod.mk.injEq] at h
    obtain ⟨r, hr, -, rfl⟩ := h
    split_ifs
    · exact .inl rfl
    · exact origin_afterRaid
  | cap =>
    simp only [eventThreadFunc, Action.steps_mk, Prod.mk.injEq] at h
    obtain ⟨r, hr, -, rfl⟩ := h
    cases hr
    split_ifs
    · exact .inl ⟨rfl, rfl⟩
    · exact .inl rfl
  | leakDice =>
    simp only [eventThreadFunc, Action.steps_mk, Prod.mk.injEq] at h
    obtain ⟨r, hr, -, rfl⟩ := h
    split_ifs <;> exact .inl rfl
  | raidSchedule now =>
    obtain ⟨r, hr, he⟩ := h
    cases he
    exact origin_afterRaid
  | npcThread =>
    obtain ⟨r, hr, he⟩ := h
    cases he
    simp only [Event.afterNpc]
    split_ifs <;> trivial
  | _ =>
    obtain ⟨r, hr, he⟩ := h
    cases he
    trivial

end UnderFlow
