import UnderFlow.Server.Origin

/-!
# The schedule of the event thread

The event thread sleeps, counts its ticks and lets the tick say what is due.  Its work takes time
too, so what it does comes at least as far apart as its ticks and intervals say.

* `EventStep` : the control flow of `event_thread_func`.
* `pulseServer` : the server with a record of what the event thread does, and when.
* `OnTime` : how far a pulse of the record lies back, at every point of the loop (`onTime_step`).
* `Scheduled` : the invariant, with one event thread at most (`scheduled_step`).
* `spaced_of_reach` : **the pulses of every run keep their distance**.
-/

namespace UnderFlow

variable {s s' : Shared} {c : Choice} {v v' : EventVars} {pc pc' : Event} {clock T t : ℕ}
  {th th' : Thread} {p p' : Server}

/-! ### The control flow -/

/-- **The control flow of `event_thread_func`**, with what it does to its variables. -/
inductive EventStep (clock : ℕ) (v : EventVars) : Event → EventVars → Event → Prop
  | start : EventStep clock v .start v (.schedule clock)
  | schedule (now r : ℕ) : EventStep clock v (.schedule now)
      { v with nextPeriodicRaidAt := now + raidInterval r } .tick
  | tick : EventStep clock v .tick v (.sleep (clock + evtTickSec))
  | wake (w : ℕ) (h : w ≤ clock) :
      EventStep clock v (.sleep w) { v with tick := v.tick + 1 } .cap
  | expired (q : RoundEnd) : EventStep clock v .cap v (.roundEnd q)
  | cap (q : AgeNpcs) : EventStep clock v .cap v (.ageNpcs q)
  | roundEnd (q q' : RoundEnd) : EventStep clock v (.roundEnd q) v (.roundEnd q')
  | roundEnded (q : RoundEnd) (q' : AgeNpcs) : EventStep clock v (.roundEnd q) v (.ageNpcs q')
  | ageNpcs (q q' : AgeNpcs) : EventStep clock v (.ageNpcs q) v (.ageNpcs q')
  | agedNpcs (q : AgeNpcs) (q' : AgeMarket) : EventStep clock v (.ageNpcs q) v (.ageMarket q')
  | ageMarket (q q' : AgeMarket) : EventStep clock v (.ageMarket q) v (.ageMarket q')
  | agedMarket (q : AgeMarket) : EventStep clock v (.ageMarket q) v .raidDue
  | due (h : v.nextPeriodicRaidAt ≤ clock) : EventStep clock v .raidDue v (.raid .launch)
  | notDue : EventStep clock v .raidDue v (Event.afterRaid v)
  | raid (q q' : PeriodicRaid) (h : q' ≠ .launch) : EventStep clock v (.raid q) v (.raid q')
  | raided (q : PeriodicRaid) : EventStep clock v (.raid q) v .raidNext
  | raidNext : EventStep clock v .raidNext v (.raidSchedule clock)
  | raidSchedule (now r : ℕ) : EventStep clock v (.raidSchedule now)
      { v with nextPeriodicRaidAt := now + raidInterval r } (Event.afterRaid v)
  | dice (q : Leak) : EventStep clock v .leakDice v (.leak q)
  | noLeak (q : Spawn) : EventStep clock v .leakDice v (.spawn q)
  | leak (q q' : Leak) : EventStep clock v (.leak q) v (.leak q')
  | leaked (q : Leak) (q' : Spawn) : EventStep clock v (.leak q) v (.spawn q')
  | spawn (q q' : Spawn) : EventStep clock v (.spawn q) v (.spawn q')
  | spawned (q : Spawn) : EventStep clock v (.spawn q) v (Event.afterSpawn v)
  | npcThread : EventStep clock v .npcThread v (Event.afterNpc v)
  | news (text : Bytes) : EventStep clock v .news v (.newsSend text)
  | newsSend (text : Bytes) : EventStep clock v (.newsSend text) v .tick

theorem firePeriodicPoliceRaid_next {q q' : PeriodicRaid} {r : (firePeriodicPoliceRaid q).op.Ret}
    (h : (firePeriodicPoliceRaid q).next r = .cont q') : q' ≠ .launch := by
  rintro rfl
  cases q with
  | launch =>
    simp only [firePeriodicPoliceRaid] at h
    split at h
    · cases h
    · split_ifs at h <;> cases h
  | timer serial =>
    simp only [firePeriodicPoliceRaid] at h
    split_ifs at h
    cases h
  | _ => cases h

/-- **The loop follows its control flow.** -/
theorem event_step (h : (eventThreadFunc v pc).Steps s c s' (v', pc')) :
    EventStep s.clock v pc v' pc' := by
  obtain ⟨r, hr, hn⟩ := h
  cases pc with
  | start | tick | raidNext =>
    cases hr
    cases hn
    constructor
  | schedule now | raidSchedule now =>
    cases hn
    constructor
  | sleep wake =>
    simp only [eventThreadFunc, Op.exec] at hr
    split_ifs at hr with hwake
    cases hn
    exact .wake wake hwake
  | cap =>
    cases r <;> cases hn <;> constructor
  | raidDue =>
    cases hr
    simp only [eventThreadFunc] at hn
    split_ifs at hn with hdue <;> cases hn
    · exact .due hdue
    · exact .notDue
  | raid q =>
    simp only [eventThreadFunc, Action.map] at hn
    split at hn
    · rename_i q' hq
      cases hn
      exact .raid q q' (firePeriodicPoliceRaid_next hq)
    · cases hn
      exact .raided q
  | leakDice =>
    simp only [eventThreadFunc] at hn
    split_ifs at hn <;> cases hn <;> constructor
  | roundEnd q | ageNpcs q | ageMarket q | leak q | spawn q =>
    simp only [eventThreadFunc, Action.map] at hn
    split at hn <;> cases hn <;> constructor
  | npcThread | news | newsSend text =>
    cases hn
    constructor

/-! ### Pulses -/

/-- What the loop does in some of its ticks. -/
inductive Beat where
  | tick
  | leak
  | npc
  | news
  deriving DecidableEq

/-- In every how many ticks. -/
def Beat.every : Beat → ℕ
  | .tick => 1
  | .leak => evtLeakEvery
  | .npc => evtNpcEvery
  | .news => 8

/-- What the event thread does at a distance from the last time. -/
inductive Pulse where
  | beat (b : Beat)
  | raid
  deriving DecidableEq

/-- The seconds between two pulses of one kind. -/
def Pulse.gap : Pulse → ℕ
  | .beat b => b.every * evtTickSec
  | .raid => periodicRaidMinInterval

/-- What the loop does at a point: it wakes up, throws the dice for a leak, starts an order, sends
the news or launches a raid. -/
def Event.pulse : Event → Option Pulse
  | .sleep _ => some (.beat .tick)
  | .leakDice => some (.beat .leak)
  | .npcThread => some (.beat .npc)
  | .newsSend _ => some (.beat .news)
  | .raid .launch => some .raid
  | _ => none

/-- The pulses the event thread makes, with their times. -/
def pulsesAt (p : Server) (l : Label) : List (ℕ × Pulse) :=
  match threadAt p l with
  | some (.event _ pc) => (pc.pulse.map fun pl => (p.shared.clock, pl)).toList
  | _ => []

/-- The server with a record of its pulses. -/
def pulseServer : System (Server × List (ℕ × Pulse)) Label := server.withHistory pulsesAt

/-- The pulses keep their distance. -/
def Spaced (hist : List (ℕ × Pulse)) : Prop :=
  hist.Pairwise fun x y => x.2 = y.2 → x.1 + x.2.gap ≤ y.1

/-! ### How far a pulse lies back -/

/-- The beat is still to come in this tick, if it is due. -/
def Event.ahead : Event → Beat → Bool
  | .cap, b | .roundEnd _, b | .ageNpcs _, b | .ageMarket _, b | .raidDue, b | .raid _, b
  | .raidNext, b | .raidSchedule _, b | .leakDice, b => b != .tick
  | .leak _, b | .spawn _, b | .npcThread, b => b == .npc || b == .news
  | .news, b | .newsSend _, b => b == .news
  | _, _ => false

/-- The ticks since the last beat. -/
def Event.since (v : EventVars) (pc : Event) (b : Beat) : ℕ :=
  if v.tick % b.every = 0 ∧ pc.ahead b then b.every else v.tick % b.every

/-- The loop does not wake up before. -/
def Event.nextTick (clock : ℕ) : Event → ℕ
  | .sleep wake => wake
  | _ => clock + evtTickSec

/-- A raid at time `T` lies in the past of the loop. -/
def Event.Raided (clock : ℕ) (v : EventVars) (T : ℕ) : Event → Prop
  | .start | .schedule _ => False
  | .raid .launch => T + periodicRaidMinInterval ≤ clock
  | .raid _ | .raidNext => T ≤ clock
  | .raidSchedule now => T ≤ now
  | _ => T + periodicRaidMinInterval ≤ v.nextPeriodicRaidAt

/-- How far a pulse of the record lies back. -/
def OnTime (clock : ℕ) (v : EventVars) (pc : Event) : ℕ × Pulse → Prop
  | (T, .beat b) => T + (pc.since v b + 1) * evtTickSec ≤ pc.nextTick clock
  | (T, .raid) => pc.Raided clock v T

/-- The loop is at a beat only in a tick in which it is due. -/
def Event.OnBeat (v : EventVars) : Event → Prop
  | .leakDice => v.tick % Beat.leak.every = 0
  | .npcThread => v.tick % Beat.npc.every = 0
  | .news | .newsSend _ => v.tick % Beat.news.every = 0
  | _ => True

/-! ### One step of the loop -/

theorem tick_step (h : EventStep clock v pc v' pc') (hpc : ∀ w, pc ≠ .sleep w) :
    v'.tick = v.tick := by
  cases h with
  | wake w hw => exact absurd rfl (hpc w)
  | _ => rfl

/-- The control flow keeps to the beat. -/
theorem onBeat_step (h : EventStep clock v pc v' pc') (hon : pc.OnBeat v) : pc'.OnBeat v' := by
  cases h with
  | notDue | raidSchedule now r =>
    rw [Event.afterRaid]
    split_ifs with htick
    · exact htick
    · trivial
  | spawned q =>
    rw [Event.afterSpawn, Event.afterNpc]
    split_ifs with hnpc hnews
    · exact hnpc
    · exact hnews
    · trivial
  | npcThread =>
    rw [Event.afterNpc]
    split_ifs with hnews
    · exact hnews
    · trivial
  | news text => exact hon
  | _ => trivial

/-- What is still to come in this tick was so before, and is not made now. -/
theorem ahead_step {b : Beat} (h : EventStep clock v pc v' pc') (hpc : ∀ w, pc ≠ .sleep w)
    (hb : pc'.ahead b = true) : pc.ahead b = true ∧ pc.pulse ≠ some (.beat b) := by
  revert hb
  cases h with
  | wake w hw => exact absurd rfl (hpc w)
  | raid q q' hq | raided q => cases q <;> cases b <;> simp [Event.ahead, Event.pulse]
  | notDue | raidSchedule now r =>
    rw [Event.afterRaid]
    split_ifs <;> cases b <;> simp [Event.ahead, Event.pulse]
  | spawned q =>
    rw [Event.afterSpawn, Event.afterNpc]
    split_ifs <;> cases b <;> simp [Event.ahead, Event.pulse]
  | npcThread =>
    rw [Event.afterNpc]
    split_ifs <;> cases b <;> simp [Event.ahead, Event.pulse]
  | _ => cases b <;> simp [Event.ahead, Event.pulse]

/-- A beat is made in a tick in which it is due, and was ahead. -/
theorem due_of_pulse {b : Beat} (hon : pc.OnBeat v) (hp : pc.pulse = some (.beat b)) :
    (b = .tick ∧ ∃ w, pc = .sleep w) ∨ (v.tick % b.every = 0 ∧ pc.ahead b = true) := by
  cases pc with
  | sleep w =>
    cases hp
    exact .inl ⟨rfl, w, rfl⟩
  | raid q => cases q <;> cases hp
  | leakDice | npcThread | newsSend text =>
    cases hp
    exact .inr ⟨hon, rfl⟩
  | _ => cases hp

/-- Within a tick the beats come no nearer. -/
theorem since_step (h : EventStep clock v pc v' pc') (hpc : ∀ w, pc ≠ .sleep w) (b : Beat) :
    pc'.since v' b ≤ pc.since v b := by
  rw [Event.since, Event.since, tick_step h hpc]
  by_cases hb : pc'.ahead b = true
  · rw [hb, (ahead_step h hpc hb).1]
  · rw [if_neg fun hand => hb hand.2]
    split_ifs with hand
    · rw [hand.1]
      exact Nat.zero_le _
    · exact le_rfl

theorem since_wake (v : EventVars) (w : ℕ) (b : Beat) :
    Event.since { v with tick := v.tick + 1 } .cap b ≤ Event.since v (.sleep w) b + 1 := by
  have hpast : Event.since v (.sleep w) b = v.tick % b.every :=
    if_neg fun hand => Bool.false_ne_true hand.2
  rw [hpast, Event.since]
  split_ifs with hand
  · obtain ⟨hdue, -⟩ := hand
    cases b <;> simp only [Beat.every, evtLeakEvery, evtNpcEvery] at hdue ⊢ <;> omega
  · cases b <;> simp only [Beat.every, evtLeakEvery, evtNpcEvery] <;> omega

/-- A beat that is made now is not made again in this tick. -/
theorem since_pulse {b : Beat} (h : EventStep clock v pc v' pc') (hon : pc.OnBeat v)
    (hp : pc.pulse = some (.beat b)) : pc'.since v' b = 0 := by
  rcases due_of_pulse hon hp with ⟨rfl, w, rfl⟩ | ⟨hdue, hahead⟩
  · cases h
    simp [Event.since, Event.ahead, Beat.every, Nat.mod_one]
  · have hpc : ∀ w, pc ≠ .sleep w := by
      rintro w rfl
      cases hahead
    have hlast : pc'.ahead b ≠ true := fun hb => (ahead_step h hpc hb).2 hp
    rw [Event.since, tick_step h hpc, if_neg fun hand => hlast hand.2, hdue]

theorem nextTick_of_ne (hpc : ∀ w, pc ≠ .sleep w) : pc.nextTick clock = clock + evtTickSec := by
  cases pc with
  | sleep w => exact absurd rfl (hpc w)
  | _ => rfl

/-- After every step a whole sleep is still to come. -/
theorem nextTick_step (h : EventStep clock v pc v' pc') :
    pc'.nextTick clock = clock + evtTickSec := by
  cases h with
  | notDue | raidSchedule now r =>
    rw [Event.afterRaid]
    split_ifs <;> rfl
  | spawned q =>
    rw [Event.afterSpawn, Event.afterNpc]
    split_ifs <;> rfl
  | npcThread =>
    rw [Event.afterNpc]
    split_ifs <;> rfl
  | _ => rfl

/-- A raid of the past stays as far back. -/
theorem raided_step (h : EventStep clock v pc v' pc') (hr : pc.Raided clock v T) :
    pc'.Raided clock v' T := by
  have hafter : T + periodicRaidMinInterval ≤ v'.nextPeriodicRaidAt →
      (Event.afterRaid v).Raided clock v' T := by
    intro hle
    rw [Event.afterRaid]
    split_ifs <;> exact hle
  cases h with
  | start | schedule now r => exact hr.elim
  | due hdue => exact le_trans hr hdue
  | notDue => exact hafter hr
  | raid q q' hq =>
    have hpast : T ≤ clock := by
      cases q with
      | launch => exact (Nat.le_add_right _ _).trans hr
      | _ => exact hr
    cases q' with
    | launch => exact absurd rfl hq
    | _ => exact hpast
  | raided q =>
    cases q with
    | launch => exact (Nat.le_add_right _ _).trans hr
    | _ => exact hr
  | raidNext => exact hr
  | raidSchedule now r =>
    refine hafter ?_
    have hle : T ≤ now := hr
    simp only [raidInterval]
    omega
  | spawned q =>
    rw [Event.afterSpawn, Event.afterNpc]
    split_ifs <;> exact hr
  | npcThread =>
    rw [Event.afterNpc]
    split_ifs <;> exact hr
  | _ => exact hr

/-- **A pulse of the past** stays as far back as the loop needs. -/
theorem onTime_step {e : ℕ × Pulse} (h : EventStep clock v pc v' pc') (he : OnTime clock v pc e) :
    OnTime clock v' pc' e := by
  obtain ⟨T, b | _⟩ := e
  · by_cases hpc : ∃ w, pc = .sleep w
    · obtain ⟨w, rfl⟩ := hpc
      cases h with
      | wake w hw =>
        have hsince := since_wake v w b
        have hT : T + (Event.since v (.sleep w) b + 1) * evtTickSec ≤ w := he
        show T + _ * evtTickSec ≤ clock + evtTickSec
        simp only [evtTickSec] at hT ⊢
        omega
    · rw [not_exists] at hpc
      have hsince := since_step h hpc b
      have hT : T + (pc.since v b + 1) * evtTickSec ≤ clock + evtTickSec :=
        nextTick_of_ne hpc ▸ he
      show T + _ * evtTickSec ≤ _
      rw [nextTick_step h]
      exact le_trans (by gcongr) hT
  · exact raided_step h he

/-- A pulse that is made now. -/
theorem onTime_pulse {pl : Pulse} (h : EventStep clock v pc v' pc') (hon : pc.OnBeat v)
    (hp : pc.pulse = some pl) : OnTime clock v' pc' (clock, pl) := by
  cases pl with
  | beat b =>
    show clock + (pc'.since v' b + 1) * evtTickSec ≤ pc'.nextTick clock
    rw [since_pulse h hon hp, nextTick_step h, Nat.zero_add, Nat.one_mul]
  | raid =>
    cases pc with
    | raid q =>
      cases q with
      | launch =>
        cases h with
        | raid q q' hq =>
          cases q' with
          | launch => exact absurd rfl hq
          | _ => exact le_refl clock
        | raided q => exact le_refl clock
      | _ => cases hp
    | _ => cases hp

/-- **The distance** of a pulse to those of its kind before it. -/
theorem gap_of_onTime {pl : Pulse} (h : EventStep clock v pc v' pc') (hon : pc.OnBeat v)
    (hp : pc.pulse = some pl) (he : OnTime clock v pc (T, pl)) : T + pl.gap ≤ clock := by
  cases pl with
  | beat b =>
    rcases due_of_pulse hon hp with ⟨rfl, w, rfl⟩ | ⟨hdue, hahead⟩
    · cases h with
      | wake w hw =>
        have hT : T + (Event.since v (.sleep w) .tick + 1) * evtTickSec ≤ w := he
        simp only [Pulse.gap, Beat.every, evtTickSec] at hT ⊢
        omega
    · have hpc : ∀ w, pc ≠ .sleep w := by
        rintro w rfl
        cases hahead
      have hT : T + (pc.since v b + 1) * evtTickSec ≤ pc.nextTick clock := he
      rw [nextTick_of_ne hpc, Event.since, if_pos ⟨hdue, hahead⟩] at hT
      simp only [Pulse.gap, evtTickSec] at hT ⊢
      omega
  | raid =>
    cases pc with
    | raid q =>
      cases q with
      | launch => exact he
      | _ => cases hp
    | _ => cases hp

/-- Time passes. -/
theorem onTime_later {e : ℕ × Pulse} {clock' : ℕ} (hle : clock ≤ clock')
    (he : OnTime clock v pc e) : OnTime clock' v pc e := by
  obtain ⟨T, b | _⟩ := e
  · have hT : T + (pc.since v b + 1) * evtTickSec ≤ pc.nextTick clock := he
    refine le_trans hT ?_
    cases pc with
    | sleep w => exact le_rfl
    | _ => exact Nat.add_le_add_right hle _
  · cases pc with
    | raid q => cases q <;> exact le_trans he hle
    | raidNext => exact le_trans he hle
    | _ => exact he

/-! ### One event thread -/

/-- The operation starts an event thread. -/
def Op.startsLoop : Op → Bool
  | .pthreadCreate .event => true
  | _ => false

section StartsLoop

variable {key : Key} {sock : ℕ} {a : Action Thread}

theorem startsLoop_of_ordinary {o : Op} (h : o.ordinary = true) : o.startsLoop = false := by
  cases o with
  | pthreadCreate n => cases n <;> first | rfl | cases h
  | _ => rfl

theorem clientLoop_startsLoop (pc : Command) : (clientLoop sock key pc).op.startsLoop = false := by
  cases pc with
  | buy d q | sell n ds q | selfRaid q => cases q <;> rfl
  | _ => exact startsLoop_of_ordinary (clientLoop_ordinary rfl)

theorem eventThreadFunc_startsLoop (v : EventVars) (pc : Event) :
    (eventThreadFunc v pc).op.startsLoop = false := by
  cases pc with
  | spawn q | ageMarket q | raid q => cases q <;> rfl
  | _ => exact startsLoop_of_ordinary (eventThreadFunc_ordinary rfl)

theorem triggerRoundReset_startsLoop (pc : Reset) :
    (triggerRoundReset pc).op.startsLoop = false := by
  cases pc with
  | masterPurge q | userPurge name todo q | seed q => cases q <;> rfl
  | _ => rfl

/-- **Only `main` starts the event thread.** -/
theorem startsLoop_action (ha : th.action = some a) (h : a.op.startsLoop = true) :
    th = .main .startEvents := by
  have hno : ∀ {o : Op}, o.startsLoop = false → o.startsLoop = true →
      th = .main .startEvents := by
    intro o h₁ h₂
    rw [h₁] at h₂
    cases h₂
  cases th with
  | main pc =>
    cases ha
    cases pc with
    | startEvents => rfl
    | seed q => cases q <;> cases h
    | _ => cases h
  | session sock key pc =>
    cases ha
    exact hno (clientLoop_startsLoop pc) h
  | event v pc =>
    cases ha
    exact hno (eventThreadFunc_startsLoop v pc) h
  | roundEndTimer pc =>
    cases ha
    cases pc with
    | reset q => exact hno (triggerRoundReset_startsLoop q) h
    | _ => cases h
  | raidTimeout serial pc =>
    cases ha
    cases pc with
    | burn k todo q => exact hno (startsLoop_of_ordinary (burnUserByKey_ordinary k q)) h
    | _ => cases h
  | login sock pc =>
    cases ha
    cases pc <;> cases h
  | disconnect sock pc =>
    cases ha
    cases pc <;> cases h
  | npcSequence pc =>
    cases ha
    cases pc <;> cases h
  | leakRecovery mask dur pc =>
    cases ha
    cases pc <;> cases h
  | finished => cases ha

end StartsLoop

/-- `main` has not started the event thread. -/
def Main.early : Main → Bool
  | .marketInit | .npcInit | .seed _ | .startEvents => true
  | _ => false

/-- The thread is the event thread, or is to start it. -/
def Thread.drives : Thread → Bool
  | .event _ _ => true
  | .main pc => pc.early
  | _ => false

theorem drives_next {a : Action Thread} {r : a.op.Ret} (ha : th.action = some a)
    (h : (a.next r).drives = true) : th.drives = true ∧ th ≠ .main .startEvents := by
  cases th with
  | event v pc => exact ⟨rfl, by rintro ⟨⟩⟩
  | main pc =>
    cases ha
    cases pc with
    | marketInit | npcInit | seed q => exact ⟨rfl, by rintro ⟨⟩⟩
    | startEvents | add sock =>
      cases r <;> cases h
    | _ => cases h
  | finished => cases ha
  | login sock pc =>
    cases ha
    revert h
    simp only [Action.map]
    split <;> rintro ⟨⟩
  | session sock key pc =>
    cases ha
    revert h
    simp only [Action.map]
    split <;> rintro ⟨⟩
  | disconnect _ pc | npcSequence pc | leakRecovery _ _ pc | raidTimeout _ pc
  | roundEndTimer pc =>
    cases ha
    revert h
    simp only [Action.map, Thread.resume]
    split <;> rintro ⟨⟩

/-- A new event thread is started by `main`. -/
theorem drives_new {a : Action Thread} {r : a.op.Ret} {u : Thread} (ha : th.action = some a)
    (hu : u ∈ a.op.spawned r) (h : u.drives = true) :
    th = .main .startEvents ∧ a.op.spawned r = [.event {} .start] := by
  obtain ⟨op, next⟩ := a
  cases op with
  | pthreadCreate n =>
    simp only [Op.spawned] at hu ⊢
    split_ifs at hu ⊢ with hr
    · obtain rfl := List.mem_singleton.1 hu
      cases n with
      | event => exact ⟨startsLoop_action ha rfl, rfl⟩
      | _ => cases h
    · cases hu
  | clientAdd sock =>
    simp only [Op.spawned] at hu
    split_ifs at hu
    · obtain rfl := List.mem_singleton.1 hu
      cases h
    · cases hu
  | _ => cases hu

/-! ### The invariant -/

/-- The record keeps its distances, one thread at most drives the loop, and what the record holds
lies far enough back for it. -/
structure Scheduled (p : Server) (hist : List (ℕ × Pulse)) : Prop where
  spaced : Spaced hist
  one : ∀ (i j : ℕ) (u w : Thread), p.threads[i]? = some u → p.threads[j]? = some w →
    u.drives = true → w.drives = true → i = j
  started : hist ≠ [] → ∃ (j : ℕ) (v : EventVars) (pc : Event), p.threads[j]? = some (.event v pc)
  loop : ∀ (j : ℕ) (v : EventVars) (pc : Event), p.threads[j]? = some (.event v pc) →
    pc.OnBeat v ∧ ∀ e ∈ hist, OnTime p.shared.clock v pc e

theorem scheduled_boot (cwd : Dir) (files : Files) (users : UserDb) (clock : ℕ) :
    Scheduled (boot cwd files users clock) [] where
  spaced := .nil
  one i j u w hu hw _ _ := by
    obtain ⟨hi, -⟩ := List.getElem?_eq_some_iff.1 hu
    obtain ⟨hj, -⟩ := List.getElem?_eq_some_iff.1 hw
    exact (Nat.lt_one_iff.1 hi).trans (Nat.lt_one_iff.1 hj).symm
  started h := absurd rfl h
  loop j v pc hth := by cases List.mem_singleton.1 (List.mem_of_getElem? hth)

/-- The step of the event thread. -/
theorem loop_step {a : Action Thread} {r : a.op.Ret} (ha : (Thread.event v pc).action = some a)
    (hr : a.op.exec s c = some (s', r)) :
    ∃ v' pc', a.next r = .event v' pc' ∧ EventStep s.clock v pc v' pc' := by
  cases ha
  exact ⟨_, _, rfl, event_step ⟨r, hr, rfl⟩⟩

/-- One thread at most drives the loop after a step. -/
theorem one_step {hist : List (ℕ × Pulse)} {a : Action Thread} {r : a.op.Ret}
    (hS : Scheduled p hist) (hth : p.threads[t]? = some th) (ha : th.action = some a)
    (hthreads : p'.threads = p.threads.set t (a.next r) ++ a.op.spawned r) (i j : ℕ)
    (u w : Thread) (hu : p'.threads[i]? = some u) (hw : p'.threads[j]? = some w)
    (hdu : u.drives = true) (hdw : w.drives = true) : i = j := by
  -- a new event thread is alone: `main` was to start it, and goes on to accept
  have hnew : ∀ (k : ℕ) (x y : Thread), x ∈ a.op.spawned r → x.drives = true →
      p'.threads[k]? = some y → y.drives = true → k = p.threads.length := by
    intro k x y hx hdx hy hdy
    obtain ⟨rfl, hspawned⟩ := drives_new ha hx hdx
    rw [hthreads] at hy
    rcases Pool.place_step hy with ⟨hk, hy⟩ | ⟨rfl, rfl⟩ | ⟨hk, -⟩
    · exact absurd (hS.one k t y _ hy hth hdy rfl) hk
    · exact absurd rfl (drives_next ha hdy).2
    · obtain ⟨hlt, -⟩ := List.getElem?_eq_some_iff.1 hy
      rw [hspawned, List.length_append, List.length_set, List.length_singleton] at hlt
      omega
  have hold : ∀ (k : ℕ) (x : Thread), p'.threads[k]? = some x → x.drives = true →
      x ∈ a.op.spawned r ∨ ∃ y, p.threads[k]? = some y ∧ y.drives = true := by
    intro k x hx hdx
    rw [hthreads] at hx
    rcases Pool.getElem?_step hx with ⟨-, hx⟩ | ⟨rfl, rfl⟩ | hx
    · exact .inr ⟨x, hx, hdx⟩
    · exact .inr ⟨th, hth, (drives_next ha hdx).1⟩
    · exact .inl hx
  rcases hold i u hu hdu with hu' | ⟨u', hu', hdu'⟩
  · rw [hnew i u u hu' hdu hu hdu, hnew j u w hu' hdu hw hdw]
  · rcases hold j w hw hdw with hw' | ⟨w', hw', hdw'⟩
    · rw [hnew i w u hw' hdw hu hdu, hnew j w w hw' hdw hw hdw]
    · exact hS.one i j u' w' hu' hw' hdu' hdw'

theorem pulsesAt_event (hth : p.threads[t]? = some (.event v pc)) : pulsesAt p (.run t c) =
    (pc.pulse.map fun pl => (p.shared.clock, pl)).toList := by
  have hat : threadAt p (.run t c) = some (.event v pc) := hth
  rw [pulsesAt, hat]

theorem pulsesAt_other (hth : p.threads[t]? = some th) (hne : ∀ v pc, th ≠ .event v pc) :
    pulsesAt p (.run t c) = [] := by
  have hat : threadAt p (.run t c) = some th := hth
  rw [pulsesAt, hat]
  cases th with
  | event v pc => exact absurd rfl (hne v pc)
  | _ => rfl

/-- **A step of the event thread** keeps the schedule. -/
theorem scheduled_event {hist : List (ℕ × Pulse)} (hS : Scheduled p hist)
    (hth : p.threads[t]? = some (.event v pc)) (hn : server.next p (.run t c) = some p') :
    Scheduled p' (hist ++ pulsesAt p (.run t c)) := by
  obtain ⟨th, a, r, hth', ha, hr, hthreads⟩ := server_run hn
  obtain rfl := Option.some.inj (hth.symm.trans hth')
  have hclock := (exec_frame hr).clock
  obtain ⟨hon, hpast⟩ := hS.loop t v pc hth
  obtain ⟨v', pc', hnext, hstep⟩ := loop_step ha hr
  have hself : p'.threads[t]? = some (.event v' pc') := by
    rw [hthreads, ← hnext]
    exact Pool.getElem?_step_self hth
  have hone := one_step hS hth ha hthreads
  have hmem : ∀ e ∈ pulsesAt p (.run t c), pc.pulse = some e.2 ∧ e.1 = p.shared.clock := by
    intro e he
    rw [pulsesAt_event hth] at he
    obtain ⟨pl, hpl, rfl⟩ := Option.map_eq_some_iff.1 (Option.mem_toList.1 he)
    exact ⟨hpl, rfl⟩
  refine ⟨?_, hone, fun _ => ⟨t, v', pc', hself⟩, fun j v₁ pc₁ hj => ?_⟩
  · refine List.pairwise_append.2 ⟨hS.spaced, ?_, fun x hx e he heq => ?_⟩
    · rw [pulsesAt_event hth]
      cases pc.pulse with
      | none => exact .nil
      | some pl => exact List.pairwise_singleton _ _
    · obtain ⟨hpl, htime⟩ := hmem e he
      rw [htime]
      rw [← heq] at hpl
      exact gap_of_onTime hstep hon hpl (hpast x hx)
  · obtain rfl := hone j t _ _ hj hself rfl rfl
    obtain ⟨rfl, rfl⟩ : v₁ = v' ∧ pc₁ = pc' := by simpa using hj.symm.trans hself
    refine ⟨onBeat_step hstep hon, fun e he => ?_⟩
    rw [hclock]
    rcases List.mem_append.1 he with he | he
    · exact onTime_step hstep (hpast e he)
    · obtain ⟨hpl, htime⟩ := hmem e he
      obtain ⟨T, pl⟩ := e
      cases htime
      exact onTime_pulse hstep hon hpl

/-- A step of another thread keeps it. -/
theorem scheduled_other {hist : List (ℕ × Pulse)} (hS : Scheduled p hist)
    (hth : p.threads[t]? = some th) (hne : ∀ v pc, th ≠ .event v pc)
    (hn : server.next p (.run t c) = some p') :
    Scheduled p' (hist ++ pulsesAt p (.run t c)) := by
  obtain ⟨th', a, r, hth', ha, hr, hthreads⟩ := server_run hn
  obtain rfl := Option.some.inj (hth.symm.trans hth')
  have hclock := (exec_frame hr).clock
  rw [pulsesAt_other hth hne, List.append_nil]
  refine ⟨hS.spaced, one_step hS hth ha hthreads, fun hhist => ?_, fun j v₁ pc₁ hj => ?_⟩
  · obtain ⟨j, v, pc, hj⟩ := hS.started hhist
    have hjt : j ≠ t := by
      rintro rfl
      exact hne v pc (Option.some.inj (hth.symm.trans hj))
    exact ⟨j, v, pc, by rw [hthreads]; exact Pool.getElem?_step_of_ne hjt hj⟩
  · rw [hclock]
    rw [hthreads] at hj
    rcases Pool.getElem?_step hj with ⟨-, hj⟩ | ⟨rfl, hself⟩ | hnew
    · exact hS.loop j v₁ pc₁ hj
    · obtain ⟨v₀, pc₀, rfl, -⟩ : Thread.Origin p.shared c p'.shared th (.event v₁ pc₁) :=
        hself ▸ thread_origin ha ⟨r, hr, rfl⟩
      exact absurd rfl (hne v₀ pc₀)
    · obtain ⟨rfl, hspawned⟩ := drives_new ha hnew rfl
      rw [hspawned] at hnew
      cases List.mem_singleton.1 hnew
      have hnil : hist = [] := by
        by_contra hhist
        obtain ⟨i, v, pc, hi⟩ := hS.started hhist
        obtain rfl := hS.one i t _ _ hi hth rfl rfl
        exact hne v pc (Option.some.inj (hth.symm.trans hi))
      rw [hnil]
      exact ⟨trivial, List.forall_mem_nil _⟩

/-- **Every step keeps the schedule.** -/
theorem scheduled_step {hist : List (ℕ × Pulse)} {l : Label} (hS : Scheduled p hist)
    (hn : server.next p l = some p') : Scheduled p' (hist ++ pulsesAt p l) := by
  cases l with
  | run t c =>
    obtain ⟨th, a, r, hth, -⟩ := server_run hn
    by_cases hev : ∃ v pc, th = .event v pc
    · obtain ⟨v, pc, rfl⟩ := hev
      exact scheduled_event hS hth hn
    · exact scheduled_other hS hth (fun v pc h => hev ⟨v, pc, h⟩) hn
  | env seconds =>
    obtain rfl := Pool.next_env.1 hn
    have hnone : pulsesAt p (.env seconds) = [] := rfl
    rw [hnone, List.append_nil]
    refine ⟨hS.spaced, hS.one, hS.started, fun j v pc hj => ?_⟩
    obtain ⟨hon, hpast⟩ := hS.loop j v pc hj
    exact ⟨hon, fun e he => onTime_later (Nat.le_add_right _ _) (hpast e he)⟩

/-- **The schedule**: in every run, the raids of the event thread are at least 360 seconds apart,
its ticks 5, its dice for a leak 120, the orders it starts 15, and its news 40. -/
theorem spaced_of_reach {cwd : Dir} {files : Files} {users : UserDb} {clock : ℕ}
    {q : Server × List (ℕ × Pulse)}
    (hq : pulseServer.Reach System.anyStep (boot cwd files users clock, []) q) : Spaced q.2 := by
  have hS : Scheduled q.1 q.2 :=
    hq.invariant (I := fun q => Scheduled q.1 q.2) (scheduled_boot cwd files users clock)
      fun q l q' _ hI _ hn => by
        obtain ⟨hn, hhist⟩ := System.withHistory_next.1 hn
        rw [hhist]
        exact scheduled_step hI hn
  exact hS.spaced

/-- The event thread ticks twice, and spawns a listing in between. -/
def tickScript : List Label :=
  startUp ++ steps 1 3 ++ .env 5 :: steps 1 15 ++ .env 5 :: steps 1 1

theorem spaced_tick : ∃ q, pulseServer.Reach System.anyStep (freshBoot, []) q ∧
    q.2 = [(6, .beat .tick), (11, .beat .tick)] ∧ Spaced q.2 := by
  obtain ⟨q, hq, hf⟩ := pulseServer.exists_reach_of_any System.anyStep (freshBoot, []) tickScript
    (fun q => decide (q.2 = [(6, .beat .tick), (11, .beat .tick)])) (by decide +kernel)
  exact ⟨q, hq, of_decide_eq_true hf, spaced_of_reach hq⟩

end UnderFlow
