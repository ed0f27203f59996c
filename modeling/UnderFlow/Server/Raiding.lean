import UnderFlow.Server.Burned
import UnderFlow.Server.Sessions

/-!
# The parts of a raid

A raid is opened by one thread, closed by another, and answered by the sessions of its victims.

* `RaidRole` : what a thread has to do for a raid.
* `Thread.raidEvents` : what its next action reports of a raid.
* `raid_step` : what a step does to the raid and to the roles.
-/

namespace UnderFlow

variable {s s' : Shared} {c : Choice} {th th' : Thread} {a : Action Thread} {key k : Key}
  {sock : ℕ}

/-! ### Roles -/

/-- What happens in a raid, by the number of the raid. -/
inductive RaidEvent where
  | launched (serial : ℕ) (keys : List Key)
  | ok (serial : ℕ) (key : Key)
  | burned (serial : ℕ) (key : Key)
  deriving DecidableEq

/-- What a thread has to do for a raid. -/
inductive RaidRole where
  | idle
  /-- Close a raid that has no victims. -/
  | cancelling
  /-- See to it that the raid is closed when its time is over. -/
  | closing (serial : ℕ)
  /-- Give up a raid that cannot be closed. -/
  | rollback
  /-- Clear an entry, found while looking for the key, after a right or a wrong answer. -/
  | clearing (right : Bool) (i serial : ℕ) (key : Key)
  /-- Send the confirmation. -/
  | answering (serial : ℕ) (key : Key)
  /-- Burn the keys. -/
  | burning (serial : ℕ) (keys : List Key)

/-- The keys still to be burned at a point of `burn_user_by_key`. -/
def Burn.owed (key : Key) : Burn → List Key
  | .lookup | .burn _ => [key]
  | _ => []

/-- The role of a raid on everybody. -/
def PeriodicRaid.role : PeriodicRaid → RaidRole
  | .launch => .idle
  | .cancel => .cancelling
  | .announce _ serial | .hint _ serial | .timer serial => .closing serial
  | .rollback => .rollback

/-- The role of a raid on oneself. -/
def SelfRaid.role : SelfRaid → RaidRole
  | .launch => .idle
  | .announce _ serial | .timer serial => .closing serial
  | .rollback => .rollback

/-- The role of a timer. -/
def RaidTimeout.role (serial : ℕ) : RaidTimeout → RaidRole
  | .start | .sleep _ | .snapshot => .closing serial
  | .burn key todo pc => .burning serial (pc.owed key ++ todo)

/-- The role of a submission. -/
def Minigame.role (key : Key) : Minigame → RaidRole
  | .lookup => .idle
  | .clearOk i serial => .clearing true i serial key
  | .clearWrong i serial => .clearing false i serial key
  | .reply serial => .answering serial key
  | .burn serial pc => .burning serial (pc.owed key)

/-- The role of a command. -/
def Command.role (key : Key) : Command → RaidRole
  | .minigame _ pc => pc.role key
  | .selfRaid pc => pc.role
  | _ => .idle

/-- The role of the event thread. -/
def Event.role : Event → RaidRole
  | .raid pc => pc.role
  | _ => .idle

/-- The role of a thread. -/
def Thread.role : Thread → RaidRole
  | .session _ key pc => pc.role key
  | .event _ pc => pc.role
  | .raidTimeout serial pc => pc.role serial
  | _ => .idle

/-- A role with nothing to do. -/
def RaidRole.Rests (r : RaidRole) : Prop := r = .idle ∨ ∃ serial, r = .burning serial []

/-- The key a session serves. -/
def Thread.sessionKey : Thread → Option Key
  | .session _ key _ => some key
  | _ => none

/-- The record a thread burns for a raid: the raid, the key, and the offset it was found at. -/
def Thread.raidBurn : Thread → Option (ℕ × Key × ℕ)
  | .session _ key (.minigame _ (.burn serial (.burn off))) => some (serial, key, off)
  | .raidTimeout serial (.burn key _ (.burn off)) => some (serial, key, off)
  | _ => none

/-- The victims of the raid a thread is about to launch. -/
def Thread.raidKeys (s : Shared) : Thread → Option (List Key)
  | .event _ (.raid .launch) => some (clientKeys s.clients)
  | .session _ key (.selfRaid .launch) => some [key]
  | _ => none

/-- What the next action of a thread reports of a raid; `ok` says whether the call succeeds. -/
def Thread.raidEvents (s : Shared) (ok : Bool) (th : Thread) : List RaidEvent :=
  match th.raidKeys s, th.raidBurn, th.role with
  | some keys, _, _ => if s.raid.deadline = 0 then [.launched (s.raid.serial + 1) keys] else []
  | none, some (serial, _, off), _ =>
    if ok then ((keyAt s.users off).map (.burned serial)).toList else []
  | none, none, .answering serial key => [.ok serial key]
  | none, none, _ => []

/-- The calls that a raid relies on: the lookup and the burn of a victim, and the start of its
timer. -/
def Op.vital : Op → Bool
  | .userdbFind _ | .userdbBurnAt _ | .pthreadCreate (.raidTimeout _) => true
  | _ => false

/-- The thread launches a raid, answers one, or ends it. -/
def Thread.raids : Thread → Bool
  | .session _ _ (.minigame _ _) | .session _ _ (.selfRaid _) => true
  | .raidTimeout _ _ | .event _ (.raid _) => true
  | _ => false

/-- The timer of a raid is started. -/
def Op.startsTimer : Op → Option ℕ
  | .pthreadCreate (.raidTimeout serial) => some serial
  | _ => none

/-! ### Steps -/

/-- What a step does to the raid and to the roles, when the calls it relies on succeed and no raid
is given up; `ev` is what it reports. -/
inductive RaidStep (s : Shared) (th : Thread) (s' : Shared) (th' : Thread) (new : List Thread)
    (ev : List RaidEvent) : Prop
  | quiet (hraid : s'.raid = s.raid)
      (hrole : th'.role = th.role ∨ th.role.Rests ∧ th'.role.Rests)
      (hnew : ∀ u ∈ new, u.role = .idle) (hev : ev = [])
  | launch (keys : List Key) (hkeys : th.raidKeys s = some keys) (h0 : s.raid.deadline = 0)
      (now rand : ℕ) (hraid : raidLaunch s.raid now rand keys = some s'.raid)
      (hth : th.role = .idle)
      (hrole : th'.role = .cancelling ∧ keys = [] ∨ th'.role = .closing (s.raid.serial + 1))
      (hnew : new = []) (hev : ev = [.launched (s.raid.serial + 1) keys])
  | cancel (hth : th.role = .cancelling) (hrole : th'.role = .idle)
      (hraid : s'.raid = { s.raid with deadline := 0 }) (hnew : new = []) (hev : ev = [])
  | timer (serial : ℕ) (hth : th.role = .closing serial) (hrole : th'.role = .idle)
      (hnew : new = [NewThread.start (.raidTimeout serial)]) (hraid : s'.raid = s.raid)
      (hev : ev = [])
  | timeout (serial : ℕ) (hth : th = .raidTimeout serial .snapshot)
      (hraid : s'.raid = (raidTimeout s.raid).2)
      (hrole : th'.role = .burning serial (raidTimeout s.raid).1 ∨
        (raidTimeout s.raid).1 = [] ∧ th'.role = .idle) (hnew : new = []) (hev : ev = [])
  | lookup (right : Bool) (i serial : ℕ) (key : Key) (code : Bytes) (hth : th.role = .idle)
      (hkey : th.sessionKey = some key)
      (hfind : raidLookup s.raid s.clock key = some (i, code, serial))
      (hrole : th'.role = .clearing right i serial key) (hraid : s'.raid = s.raid)
      (hnew : new = []) (hev : ev = [])
  | clear (right : Bool) (i serial : ℕ) (key : Key) (hth : th.role = .clearing right i serial key)
      (hkey : th.sessionKey = some key) (hraid : s'.raid = raidClear s.raid i)
      (hrole : th'.role = if right then .answering serial key else .burning serial [key])
      (hnew : new = []) (hev : ev = [])
  | answer (serial : ℕ) (key : Key) (hth : th.role = .answering serial key)
      (hrole : th'.role = .idle) (hraid : s'.raid = s.raid) (hnew : new = [])
      (hev : ev = [.ok serial key])
  | find (serial : ℕ) (key : Key) (rest : List Key) (hth : th.role = .burning serial (key :: rest))
      (hraid : s'.raid = s.raid) (hnew : new = []) (hev : ev = [])
      (hfind : th'.role = th.role ∨ userdbFind s.users key = none)
  | burn (serial : ℕ) (key : Key) (off : ℕ) (rest : List Key)
      (hth : th.role = .burning serial (key :: rest))
        (htarget : th.raidBurn = some (serial, key, off))
      (hraid : s'.raid = s.raid) (hrole : th'.role = .burning serial rest) (hnew : new = [])
      (hev : ev = ((keyAt s.users off).map (.burned serial)).toList)

theorem spawned_idle {o : Op} {r : o.Ret} (ho : o.startsTimer = none) :
    ∀ u ∈ o.spawned r, u.role = .idle := by
  intro u hu
  cases o <;> simp only [Op.spawned, List.not_mem_nil] at hu
  · split_ifs at hu <;> simp only [List.mem_singleton, List.not_mem_nil] at hu
    exact hu ▸ rfl
  · rename_i n
    split_ifs at hu <;> simp only [List.mem_singleton, List.not_mem_nil] at hu
    subst hu
    cases n <;> first | rfl | cases ho

theorem raid_quiet {o : Op} {r : o.Ret} (hr : o.exec s c = some (s', r))
    (ho : o.store ≠ some .raid ∧ o.startsTimer = none)
    (hrole : th'.role = th.role ∨ th.role.Rests ∧ th'.role.Rests) {ok : Bool}
    (hev : th.raidEvents s ok = []) : RaidStep s th s' th' (o.spawned r) (th.raidEvents s ok) :=
  .quiet ((exec_frame hr).raid ho.1) hrole (spawned_idle ho.2) hev

/-- A command of a session that has nothing to do with raids. -/
def Command.offRaid : Command → Bool
  | .minigame _ _ | .selfRaid _ => false
  | _ => true

theorem timer_of_ordinary {o : Op} (h : o.ordinary = true) : o.startsTimer = none := by
  cases o with
  | pthreadCreate n => cases n <;> first | rfl | cases h
  | _ => rfl

/-- Other commands leave the raid alone. -/
theorem Command.offRaid_store {pc : Command} (h : pc.offRaid = true) :
    (clientLoop sock key pc).op.store ≠ some .raid := by
  cases pc with
  | minigame code q | selfRaid q => cases h
  | bankruptcy q => exact (checkBankruptcy_within sock key q).store_ne (by simp)
  | buy d q => exact (handleBuy_within sock key d q).store_ne (by simp)
  | sell n ds q => exact (handleSell_within sock key n ds q).store_ne (by simp)
  | dispose d q => exact (handleDispose_within sock key d q).store_ne (by simp)
  | inventory q => exact (handleInventory_within sock key q).store_ne (by simp)
  | rumor k q => exact (handleRumor_within sock key k q).store_ne (by simp)
  | payoff q => exact (handlePayoff_within sock key q).store_ne (by simp)
  | leak q => exact (firePublicLeak_within q).store_ne (by simp)
  | fakeRich q => exact (handleFakeRich_within sock key q).store_ne (by simp)
  | endround q => exact (fireRoundEndCountdown_within _ q).store_ne (by simp)
  | _ => simp [clientLoop, Op.store]

/-- They start no timer of a raid either. -/
theorem Command.offRaid_op {pc : Command} (h : pc.offRaid = true) :
    (clientLoop sock key pc).op.store ≠ some .raid ∧
      (clientLoop sock key pc).op.startsTimer = none := by
  refine ⟨offRaid_store h, ?_⟩
  cases pc with
  | minigame code q | selfRaid q => cases h
  | buy d q | sell n ds q => cases q <;> rfl
  | _ => exact timer_of_ordinary (clientLoop_ordinary rfl)

/-- Other commands have no role, and take none. -/
theorem offRaid_role {pc pc' : Command} (h : pc.offRaid = true)
    (hs : (clientLoop sock key pc).Steps s c s' (.cont pc')) : pc'.role key = .idle := by
  have ho := session_origin hs
  cases pc' with
  | minigame code q =>
    obtain ⟨rfl, -⟩ | ⟨q, rfl, -⟩ := ho
    · rfl
    · cases h
  | selfRaid q =>
    obtain ⟨rfl, -⟩ | ⟨q, rfl, -⟩ := ho
    · rfl
    · cases h
  | _ => rfl

theorem roundEndTimerThread_timer (pc : RoundEndTimer) :
    (roundEndTimerThread pc).op.startsTimer = none := by
  cases pc with
  | reset q =>
    cases q with
    | masterPurge q | userPurge name todo q | seed q => cases q <;> rfl
    | _ => rfl
  | _ => rfl

/-- The event loop, outside a raid, leaves the raid alone. -/
theorem offRaid_event {v : EventVars} {pc : Event} (h : ¬ ∃ q, pc = .raid q) :
    (eventThreadFunc v pc).op.store ≠ some .raid ∧
      (eventThreadFunc v pc).op.startsTimer = none := by
  cases pc with
  | raid q => exact absurd ⟨q, rfl⟩ h
  | roundEnd q =>
    exact ⟨(fireRoundEndCountdown_within _ q).store_ne (by simp),
      timer_of_ordinary (fireRoundEndCountdown_ordinary _ q)⟩
  | ageNpcs q => exact ⟨(eventAgeNpcs_within q).store_ne (by simp), by cases q <;> rfl⟩
  | ageMarket q => exact ⟨(eventAgeMarket_within q).store_ne (by simp), by cases q <;> rfl⟩
  | leak q =>
    exact ⟨(firePublicLeak_within q).store_ne (by simp),
      timer_of_ordinary (firePublicLeak_ordinary q)⟩
  | spawn q => exact ⟨(eventSpawnMarket_within q).store_ne (by simp), by cases q <;> rfl⟩
  | _ => exact ⟨nofun, rfl⟩

/-- The steps of `burn_user_by_key`, in a thread that goes on by `f` and has more keys to burn. -/
theorem burn_raidStep (th : Thread) (serial : ℕ) (todo : List Key)
    (f : Next Burn → Thread) {pc : Burn}
    (hth : th.role = .burning serial (pc.owed key ++ todo)) (hkeys : th.raidKeys s = none)
    (hburn : th.raidBurn = pc.target.map fun off => (serial, key, off))
    (hcont : ∀ pc', (f (.cont pc')).role = .burning serial (pc'.owed key ++ todo))
    (hret : (f (.ret ())).role = .burning serial todo ∨ todo = [] ∧ (f (.ret ())).role = .idle)
    (hok : (burnUserByKey key pc).op.vital = true → c.ok = true)
    {r : (burnUserByKey key pc).op.Ret} (hr : (burnUserByKey key pc).op.exec s c = some (s', r)) :
    RaidStep s th s' (f ((burnUserByKey key pc).next r))
      ((burnUserByKey key pc).op.spawned r) (th.raidEvents s c.ok) := by
  have hop : (burnUserByKey key pc).op.store ≠ some .raid ∧
      (burnUserByKey key pc).op.startsTimer = none :=
    ⟨(burnUserByKey_within key pc).store_ne (by simp), timer_of_ordinary (burnUserByKey_ordinary key pc)⟩
  have hev : pc.target = none → th.raidEvents s c.ok = [] := by
    intro hpc
    simp [Thread.raidEvents, hkeys, hburn, hpc, hth]
  have hraid := (exec_frame hr).raid hop.1
  cases pc with
  | lookup =>
    refine .find serial key todo hth hraid rfl (hev rfl) ?_
    obtain ⟨rfl, ⟨-, ⟨rec, off⟩, hp, rfl⟩ | ⟨hno, rfl⟩⟩ := exec_find hr
    · exact .inl ((hcont _).trans hth.symm)
    · exact .inr (hno (hok rfl))
  | burn off =>
    refine .burn serial key off todo hth hburn hraid (hcont _) rfl ?_
    simp [Thread.raidEvents, hkeys, hburn, Burn.target, hok rfl]
  | purge pc =>
    have hrole : (f ((burnUserByKey key (.purge pc)).next r)).role = th.role := by
      simp only [burnUserByKey, Action.map]
      generalize (purgeDocsIn (.user key) pc).next r = n
      rcases n with pc' | _ | _ <;> exact (hcont _).trans hth.symm
    exact raid_quiet hr hop (.inl hrole) (hev rfl)
  | notify =>
    refine raid_quiet hr hop ?_ (hev rfl)
    rcases hret with hret | ⟨rfl, hret⟩
    · exact .inl (hret.trans hth.symm)
    · exact .inr ⟨.inr ⟨serial, hth⟩, .inl hret⟩

/-- The launch of a raid. -/
theorem launch_eq_some {r : Raid} {now rand : ℕ} {keys : List Key} {raid : Raid}
    (h : raidLaunch r now rand keys = some raid) : r.deadline = 0 ∧ raid.serial = r.serial + 1 ∧
      raid.deadline ≠ 0 ∧
      raid.pending = keys ++ List.replicate (maxClients - keys.length) Key.empty := by
  simp only [raidLaunch] at h
  split_ifs at h with h0
  cases h
  have hlimit : periodicRaidTimeLimitSec = 15 := rfl
  exact ⟨not_not.1 h0, rfl, by simp only; omega, rfl⟩

theorem firePeriodicPoliceRaid_raidStep {v : EventVars} {pc : PeriodicRaid}
    {f : Next PeriodicRaid → Thread} (hcont : ∀ pc, (f (.cont pc)).role = pc.role)
    (hret : (f (.ret ())).role = .idle)
    (hok : (firePeriodicPoliceRaid pc).op.vital = true → c.ok = true) (hroll : pc.role ≠ .rollback)
    {r : (firePeriodicPoliceRaid pc).op.Ret}
    (hr : (firePeriodicPoliceRaid pc).op.exec s c = some (s', r)) :
    RaidStep s (.event v (.raid pc)) s' (f ((firePeriodicPoliceRaid pc).next r))
      ((firePeriodicPoliceRaid pc).op.spawned r)
      ((Thread.event v (.raid pc)).raidEvents s c.ok) := by
  cases pc with
  | launch =>
    simp only [firePeriodicPoliceRaid, Op.exec] at hr
    split at hr
    · rename_i hl
      cases hr
      have h0 : s.raid.deadline ≠ 0 := by
        intro h0
        simp [raidLaunch, h0] at hl
      refine .quiet rfl (.inr ⟨.inl rfl, .inl hret⟩)
        (by simp [firePeriodicPoliceRaid, Op.spawned]) ?_
      simp [Thread.raidEvents, Thread.raidKeys, h0]
    · rename_i raid hl
      cases hr
      obtain ⟨h0, hserial, -, -⟩ := launch_eq_some hl
      refine .launch (clientKeys s.clients) rfl h0 _ _ hl rfl ?_ rfl ?_
      · simp only [firePeriodicPoliceRaid]
        split_ifs with hlen
        · exact .inl ⟨hcont _, List.eq_nil_of_length_eq_zero hlen⟩
        · exact .inr ((hcont _).trans (congrArg RaidRole.closing hserial))
      · simp [Thread.raidEvents, Thread.raidKeys, h0]
  | cancel =>
    cases hr
    exact .cancel rfl hret rfl rfl rfl
  | announce code n | hint code n =>
    refine raid_quiet hr ⟨(by rintro ⟨⟩), rfl⟩ ?_ ?_
    · exact .inl (hcont _)
    · rfl
  | timer n =>
    cases hr
    rw [hok rfl]
    exact .timer n rfl hret rfl rfl rfl
  | rollback => exact absurd rfl hroll

theorem fireSelfPoliceRaid_raidStep {pc : SelfRaid}
    (hok : (fireSelfPoliceRaid sock key pc).op.vital = true → c.ok = true)
    (hroll : pc.role ≠ .rollback)
    {r : (fireSelfPoliceRaid sock key pc).op.Ret}
    (hr : (fireSelfPoliceRaid sock key pc).op.exec s c = some (s', r)) :
    RaidStep s (.session sock key (.selfRaid pc)) s'
      (match Command.resume Command.selfRaid false ((fireSelfPoliceRaid sock key pc).next r) with
        | .cont pc => .session sock key pc
        | _ => .disconnect sock .remove)
      ((fireSelfPoliceRaid sock key pc).op.spawned r)
      ((Thread.session sock key (.selfRaid pc)).raidEvents s c.ok) := by
  cases pc with
  | launch =>
    simp only [fireSelfPoliceRaid, Op.exec] at hr
    split at hr
    · rename_i hl
      cases hr
      have h0 : s.raid.deadline ≠ 0 := by
        intro h0
        simp [raidLaunch, h0] at hl
      refine .quiet rfl (.inl rfl) (by simp [fireSelfPoliceRaid, Op.spawned]) ?_
      simp [Thread.raidEvents, Thread.raidKeys, h0]
    · rename_i raid hl
      cases hr
      obtain ⟨h0, hserial, -, -⟩ := launch_eq_some hl
      refine .launch [key] rfl h0 _ _ hl rfl (.inr (congrArg RaidRole.closing hserial)) rfl ?_
      simp [Thread.raidEvents, Thread.raidKeys, h0]
  | announce code n =>
    refine raid_quiet hr ⟨(by rintro ⟨⟩), rfl⟩ ?_ ?_
    · exact .inl rfl
    · rfl
  | timer n =>
    cases hr
    rw [hok rfl]
    exact .timer n rfl rfl rfl rfl rfl
  | rollback => exact absurd rfl hroll

/-- Where a submission goes on after an action of the burning. -/
def Minigame.afterBurn (n : ℕ) : Next Burn → Next Minigame
  | .cont pc => .cont (.burn n pc)
  | .ret () => .ret ()
  | .fail code reason => .fail code reason

/-- Where the timeout goes on after an action of the burning. -/
def RaidTimeout.afterBurn (key : Key) (todo : List Key) : Next Burn → Next RaidTimeout
  | .cont pc => .cont (.burn key todo pc)
  | _ => RaidTimeout.burnNext todo

/-- Where the event thread goes on after an action of a raid. -/
def Event.afterRaidStep (v : EventVars) : Next PeriodicRaid → EventVars × Event
  | .cont pc => (v, .raid pc)
  | _ => (v, .raidNext)

theorem handleMinigameSubmit_raidStep {code : Bytes} {pc : Minigame}
    (hok : (handleMinigameSubmit sock key code pc).op.vital = true → c.ok = true)
    {r : (handleMinigameSubmit sock key code pc).op.Ret}
    (hr : (handleMinigameSubmit sock key code pc).op.exec s c = some (s', r)) :
    RaidStep s (.session sock key (.minigame code pc)) s'
      (match Command.resume (Command.minigame code) false
          ((handleMinigameSubmit sock key code pc).next r) with
        | .cont pc => .session sock key pc
        | _ => .disconnect sock .remove)
      ((handleMinigameSubmit sock key code pc).op.spawned r)
      ((Thread.session sock key (.minigame code pc)).raidEvents s c.ok) := by
  cases pc with
  | lookup =>
    cases hr
    rcases hl : raidLookup s.raid s.clock key with _ | ⟨i, current, n⟩
    · refine .quiet rfl (.inl ?_) (by simp [handleMinigameSubmit, Op.spawned]) (by rfl)
      simp only [handleMinigameSubmit]
      rfl
    · refine .lookup (decide (code = current)) i n key current rfl rfl hl ?_ rfl rfl rfl
      by_cases hcode : code = current
      · simp only [handleMinigameSubmit, hcode, ↓reduceIte, decide_true]
        rfl
      · simp only [handleMinigameSubmit, hcode, ↓reduceIte, decide_false]
        rfl
  | clearOk i n =>
    cases hr
    exact .clear true i n key rfl rfl rfl rfl rfl rfl
  | clearWrong i n =>
    cases hr
    exact .clear false i n key rfl rfl rfl rfl rfl rfl
  | reply n =>
    cases hr
    exact .answer n key rfl rfl rfl rfl rfl
  | burn n pc =>
    refine burn_raidStep (.session sock key (.minigame code (.burn n pc))) n [] (fun m =>
      Thread.afterCommand sock key
        (Command.resume (Command.minigame code) false (Minigame.afterBurn n m)))
      ?_ rfl ?_ (fun pc' => ?_) (.inr ⟨rfl, rfl⟩) hok hr
    · rw [List.append_nil]
      rfl
    · cases pc <;> rfl
    · rw [List.append_nil]
      rfl

theorem burnNext_role (serial : ℕ) (todo : List Key) :
    (Thread.resume (Thread.raidTimeout serial) (RaidTimeout.burnNext todo)).role =
      .burning serial todo ∨
    todo = [] ∧
    (Thread.resume (Thread.raidTimeout serial) (RaidTimeout.burnNext todo)).role = .idle := by
  cases todo with
  | nil => exact .inr ⟨rfl, rfl⟩
  | cons key todo => exact .inl rfl

theorem periodicRaidTimeoutThread_raidStep {serial : ℕ} {pc : RaidTimeout}
    (hok : (periodicRaidTimeoutThread pc).op.vital = true → c.ok = true)
    {r : (periodicRaidTimeoutThread pc).op.Ret}
    (hr : (periodicRaidTimeoutThread pc).op.exec s c = some (s', r)) :
    RaidStep s (.raidTimeout serial pc) s'
      (Thread.resume (Thread.raidTimeout serial) ((periodicRaidTimeoutThread pc).next r))
      ((periodicRaidTimeoutThread pc).op.spawned r)
      ((Thread.raidTimeout serial pc).raidEvents s c.ok) := by
  cases pc with
  | start | sleep wake =>
    refine raid_quiet hr ⟨(by rintro ⟨⟩), rfl⟩ ?_ ?_
    · exact .inl rfl
    · rfl
  | snapshot =>
    cases hr
    exact .timeout serial rfl rfl (burnNext_role serial _) rfl rfl
  | burn key todo pc =>
    refine burn_raidStep (.raidTimeout serial (.burn key todo pc)) serial todo (fun m =>
      Thread.resume (Thread.raidTimeout serial) (RaidTimeout.afterBurn key todo m))
      rfl rfl ?_ (fun pc' => rfl)
      (burnNext_role serial todo) hok hr
    cases pc <;> rfl

/-- **What a step does to the raid.** -/
theorem raid_step (ha : th.action = some a)
    (hok : th.raids = true → a.op.vital = true → c.ok = true) (hroll : th.role ≠ .rollback)
    {r : a.op.Ret} (hr : a.op.exec s c = some (s', r)) :
    RaidStep s th s' (a.next r) (a.op.spawned r) (th.raidEvents s c.ok) := by
  have h : a.Steps s c s' (a.next r) := ⟨r, hr, rfl⟩
  cases th with
  | session sock key pc =>
    by_cases hoff : pc.offRaid = true
    · cases ha
      obtain ⟨n, hn, he⟩ := Action.steps_map.1 h
      have hrole : (Thread.session sock key pc).role = .idle := by
        cases pc <;> first | rfl | cases hoff
      refine raid_quiet hr (Command.offRaid_op hoff) (.inr ⟨.inl hrole, .inl ?_⟩) ?_
      · rw [he]
        rcases n with pc' | _ | _
        · exact offRaid_role hoff hn
        · rfl
        · rfl
      · cases pc <;> first | rfl | cases hoff
    · cases ha
      cases pc with
      | minigame code q => exact handleMinigameSubmit_raidStep (hok rfl) hr
      | selfRaid q => exact fireSelfPoliceRaid_raidStep (hok rfl) hroll hr
      | _ => exact absurd rfl hoff
  | raidTimeout serial pc =>
    cases ha
    exact periodicRaidTimeoutThread_raidStep (hok rfl) hr
  | event v pc =>
    -- the event thread launches raids at one of its points only
    by_cases hraid : ∃ q, pc = .raid q
    · obtain ⟨q, rfl⟩ := hraid
      cases ha
      exact firePeriodicPoliceRaid_raidStep (f := fun n => (fun p : EventVars × Event =>
        .event p.1 p.2) (Event.afterRaidStep v n)) (fun pc => rfl) rfl (hok rfl) hroll hr
    · cases ha
      obtain ⟨⟨v', pc'⟩, hn, he⟩ := Action.steps_map.1 h
      have hidle : pc.role = .idle := by
        cases pc <;> first | rfl | exact absurd ⟨_, rfl⟩ hraid
      have hidle' : pc'.role = .idle := by
        have ho := event_origin hn
        cases pc' with
        | raid q' =>
          obtain rfl | ⟨q, rfl, -⟩ := ho
          · rfl
          · exact absurd ⟨q, rfl⟩ hraid
        | _ => rfl
      rw [he]
      refine raid_quiet hr (offRaid_event hraid) ?_ ?_
      · exact .inr ⟨.inl hidle, .inl hidle'⟩
      · cases pc <;> first | rfl | exact absurd ⟨_, rfl⟩ hraid
  | finished => cases ha
  | main pc =>
    cases ha
    obtain ⟨n, -, he⟩ := Action.steps_map.1 h
    have hop : (mainThread pc).op.store ≠ some .raid := (mainThread_within pc).store_ne (by simp)
    rw [he]
    refine raid_quiet hr ⟨hop, ?_⟩ ?_ ?_
    · cases pc with
      | seed q => cases q <;> rfl
      | _ => rfl
    · exact .inl (by cases n <;> rfl)
    · rfl
  | login sock pc =>
    cases ha
    obtain ⟨n, -, he⟩ := Action.steps_map.1 h
    have hop : (clientLogin sock pc).op.store ≠ some .raid :=
      (clientLogin_within sock pc).store_ne (by simp)
    rw [he]
    refine raid_quiet hr ⟨hop, ?_⟩ ?_ ?_
    · cases pc <;> rfl
    · exact .inl (by rcases n with pc' | (_ | key) | _ <;> rfl)
    · rfl
  | disconnect sock pc =>
    cases ha
    obtain ⟨n, -, he⟩ := Action.steps_map.1 h
    have hop : (clientDisconnect sock pc).op.store ≠ some .raid :=
      (clientDisconnect_within sock pc).store_ne (by simp)
    rw [he]
    refine raid_quiet hr ⟨hop, ?_⟩ ?_ ?_
    · cases pc <;> rfl
    · exact .inl (by cases n <;> rfl)
    · rfl
  | npcSequence pc =>
    cases ha
    obtain ⟨n, -, he⟩ := Action.steps_map.1 h
    have hop : (eventDoNpcSequence pc).op.store ≠ some .raid :=
      (eventDoNpcSequence_within pc).store_ne (by simp)
    rw [he]
    refine raid_quiet hr ⟨hop, ?_⟩ ?_ ?_
    · cases pc <;> rfl
    · exact .inl (by cases n <;> rfl)
    · rfl
  | leakRecovery mask dur pc =>
    cases ha
    obtain ⟨n, -, he⟩ := Action.steps_map.1 h
    have hop : (leakRecoveryThread mask dur pc).op.store ≠ some .raid :=
      (leakRecoveryThread_within mask dur pc).store_ne (by simp)
    rw [he]
    refine raid_quiet hr ⟨hop, ?_⟩ ?_ ?_
    · cases pc <;> rfl
    · exact .inl (by cases n <;> rfl)
    · rfl
  | roundEndTimer pc =>
    cases ha
    obtain ⟨n, -, he⟩ := Action.steps_map.1 h
    have hop : (roundEndTimerThread pc).op.store ≠ some .raid :=
      (roundEndTimerThread_within pc).store_ne (by simp)
    rw [he]
    refine raid_quiet hr ⟨hop, ?_⟩ ?_ ?_
    · exact roundEndTimerThread_timer pc
    · exact .inl (by cases n <;> rfl)
    · rfl

/-- The record a thread is about to burn for a raid has just been found by its key. -/
theorem raidBurn_step {serial off : ℕ} (ha : th.action = some a) (h : a.Steps s c s' th')
    (ht : th'.raidBurn = some (serial, key, off)) :
    ∃ rec, userdbFind s.users key = some (rec, off) := by
  -- the offset of a burn comes from the lookup before it
  have hburn : ∀ {q : Burn}, (burnUserByKey key q).Steps s c s' (.cont (.burn off)) →
      ∃ rec, userdbFind s.users key = some (rec, off) := by
    intro q hq
    cases q with
    | lookup =>
      obtain ⟨r, hr, hn⟩ := hq
      obtain ⟨-, ⟨-, ⟨rec, off'⟩, hp, rfl⟩ | ⟨-, rfl⟩⟩ := exec_find hr <;> cases hn
      exact ⟨rec, hp⟩
    | purge q =>
      obtain ⟨m, -, hn⟩ := Action.steps_map.1 hq
      rcases m with _ | _ | _ <;> cases hn
    | _ =>
      obtain ⟨r, -, hn⟩ := hq
      cases hn
  have ho := thread_origin ha h
  cases th' with
  | session sock key' pc' =>
    obtain ⟨pc, rfl, hs⟩ | ⟨rfl, -⟩ := ho
    · cases pc' with
      | minigame code q' =>
        cases q' with
        | burn n q' =>
          cases q' <;> cases ht
          obtain ⟨hq', -⟩ | ⟨q, rfl, hq⟩ := session_origin hs
          · cases hq'
          · cases q with
            | burn serial q =>
              obtain ⟨m, hm, hn⟩ := Action.steps_map.1 hq
              rcases m with m' | _ | _ <;> cases hn
              exact hburn hm
            | lookup =>
              obtain ⟨r, -, hn⟩ := hq
              simp only [handleMinigameSubmit] at hn
              split at hn
              · cases hn
              · split_ifs at hn <;> cases hn
            | _ =>
              obtain ⟨r, -, hn⟩ := hq
              cases hn
        | _ => cases ht
      | _ => cases ht
    · cases ht
  | raidTimeout serial pc' =>
    obtain ⟨pc, rfl, hs⟩ := ho
    cases pc' with
    | burn key' todo' q' =>
      cases q' <;> cases ht
      cases pc with
      | burn key todo q =>
        obtain ⟨m, hm, hn⟩ := Action.steps_map.1 hs
        rcases m with m' | _ | _
        · cases hn
          exact hburn hm
        · cases todo <;> cases hn
        · cases todo <;> cases hn
      | snapshot =>
        obtain ⟨r, -, hn⟩ := hs
        cases r <;> cases hn
      | _ =>
        obtain ⟨r, -, hn⟩ := hs
        cases hn
    | _ => cases ht
  | _ => cases ht

end UnderFlow
