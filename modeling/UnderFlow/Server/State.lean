import UnderFlow.Server.Market
import UnderFlow.Server.Sandbox
import UnderFlow.Server.UserDb

/-!
# The state shared by the threads of the server

The globals of `server_main.c`, `market.c` and `events.c`, the files and the database, and the
critical sections of `server_main.c` as functions.  Every function here is one critical section of
its mutex.
-/

namespace UnderFlow

/-- `MAX_CLIENTS`. -/
def maxClients : ℕ := 10
/-- `DEBT_RAISE_STEP`: how much an escape raises the goal. -/
def debtRaiseStep : ℤ := 2000
/-- `DEBT_CAP`: where the goal stops. -/
def debtCap : ℤ := 14000
/-- `RUMOR_FEE`. -/
def rumorFee : ℤ := 500
/-- `RUMOR_COOLDOWN_SEC`. -/
def rumorCooldownSec : ℕ := 30
/-- `ROUND_END_COUNTDOWN_SEC`. -/
def roundEndCountdownSec : ℕ := 60
/-- `PERIODIC_RAID_TIME_LIMIT_SEC`. -/
def periodicRaidTimeLimitSec : ℕ := 15

/-! ### The round -/

/-- The variables under `g_round_mutex`.  `capReachedAt = 0` means the cap was not reached. -/
structure Round where
  /-- `g_goal_money`. -/
  goalMoney : ℤ := UnderFlow.goalMoney
  /-- `g_escaped_count`. -/
  escapedCount : ℕ := 0
  /-- `g_round_end_active`. -/
  endActive : Bool := false
  /-- `g_cap_reached_at`; `0` while the goal is below its cap. -/
  capReachedAt : ℕ := 0
  /-- `g_escape_log`. -/
  escapeLog : List ScoreEscaped := List.replicate maxScoreEscaped default
  deriving DecidableEq

/-- The critical section of `handle_payoff`: the goal, if the balance is below it; otherwise the
old goal, the new goal and the number of escapes so far. -/
def roundPayoff (r : Round) (now : ℕ) (key : Key) (money : ℤ) :
    Except ℤ (ℤ × ℤ × ℕ) × Round :=
  if money < r.goalMoney then (.error r.goalMoney, r)
  else
    let prevGoal := r.goalMoney
    let nextGoal := min (prevGoal + debtRaiseStep) debtCap
    let escapedNow := r.escapedCount + 1
    (.ok (prevGoal, nextGoal, escapedNow),
      { r with
        goalMoney := nextGoal
        capReachedAt :=
          if nextGoal = debtCap ∧ r.capReachedAt = 0 then now else r.capReachedAt
        escapedCount := escapedNow
        escapeLog :=
          if escapedNow ≤ maxScoreEscaped then
            r.escapeLog.set (escapedNow - 1) ⟨key, prevGoal, escapedNow⟩
          else r.escapeLog })

theorem roundPayoff_eq_ok {r : Round} {now : ℕ} {key : Key} {m : ℤ} {x : ℤ × ℤ × ℕ}
    (h : (roundPayoff r now key m).1 = .ok x) : r.goalMoney ≤ m := by
  by_contra hlt
  simp [roundPayoff, not_le.1 hlt] at h

theorem roundPayoff_goal (r : Round) (now : ℕ) (key : Key) (m : ℤ) :
    (roundPayoff r now key m).2.goalMoney =
      if m < r.goalMoney then r.goalMoney else min (r.goalMoney + debtRaiseStep) debtCap := by
  by_cases h : m < r.goalMoney <;> simp [roundPayoff, h]

/-- The escapes shown on the scoreboard. -/
def roundLog (r : Round) : List ScoreEscaped :=
  r.escapeLog.take (min r.escapedCount maxScoreEscaped)

/-- `/rumor`: the end of the cooldown, and whether `g_rumor_mutex` is held. -/
structure Rumor where
  /-- `g_rumor_cd_until`. -/
  cdUntil : ℕ := 0
  /-- `g_rumor_mutex` is held. -/
  locked : Bool := false

/-! ### The connected clients -/

/-- One entry of `client_sockets` and `active_keys`; socket `0` is a free slot. -/
structure Client where
  /-- The entry of `client_sockets`. -/
  sock : ℕ := 0
  /-- The entry of `active_keys`. -/
  key : Key := Key.empty
  deriving DecidableEq

/-- The duplicate check of the login. -/
def clientDuplicate (cs : List Client) (sock : ℕ) (key : Key) : Bool :=
  cs.any fun c => c.sock != 0 && c.sock != sock && c.key == key

/-- Fill a free slot with a new connection. -/
def clientAdd (cs : List Client) (sock : ℕ) : Option (List Client) :=
  (updateFirst (fun c => c.sock == 0) (fun c => { c with sock := sock }) cs).map Prod.snd

/-- Write the key of a connection into its slot. -/
def clientRegister (cs : List Client) (sock : ℕ) (key : Key) : List Client :=
  ((updateFirst (fun c => c.sock == sock) (fun c => { c with key := key }) cs).map Prod.snd).getD cs

/-- Clear the slot of a connection. -/
def clientRemove (cs : List Client) (sock : ℕ) : List Client :=
  ((updateFirst (fun c => c.sock == sock) (fun _ => {}) cs).map Prod.snd).getD cs

/-- The keys of the logged-in connections. -/
def clientKeys (cs : List Client) : List Key :=
  (cs.filter fun c => c.sock != 0 && c.key != Key.empty).map (·.key)

/-- The sockets a broadcast is written to. -/
def clientSockets (cs : List Client) : List ℕ := (cs.filter fun c => c.sock != 0).map (·.sock)

/-- The socket a unicast is written to. -/
def clientSocketOf (cs : List Client) (key : Key) : Option ℕ :=
  (cs.find? fun c => c.sock != 0 && c.key == key).map (·.sock)

/-! ### The police raid -/

/-- `RAID_PASSCODES`. -/
def raidPasscodes : List Bytes :=
  ["pUrge", "OverRidE", "BLAckOUt", "FiRewALL", "GHOsT", "ZeROdAy", "LoCkDOWN", "SHadOW",
    "UNdErFLOW", "pASSWORD", "DEADLINE", "dEBUG", "WhITeHaT", "BLAcKHAt", "BLAckBoX",
    "WhITeBOx"].map utf8

/-- `pick_raid_passcode`, with `r` the value of `rand()`. -/
def pickRaidPasscode (r : ℕ) : Bytes := raidPasscodes.getD (r % raidPasscodes.length) []

/-- The variables under `g_periodic_raid_mutex`; `deadline = 0` means no raid, an empty key a
cleared entry.  `serial` counts the raids launched so far; no branch of the code reads it. -/
structure Raid where
  /-- When the time for an answer is over. -/
  deadline : ℕ := 0
  /-- Who has not answered yet. -/
  pending : List Key := List.replicate maxClients Key.empty
  /-- The passcode to answer with. -/
  passcode : Bytes := []
  /-- The number of raids launched. -/
  serial : ℕ := 0

/-- The launch of a raid on the given keys, unless one is going on. -/
def raidLaunch (r : Raid) (now rand : ℕ) (keys : List Key) : Option Raid :=
  if r.deadline ≠ 0 then none
  else some
    { deadline := now + periodicRaidTimeLimitSec
      pending := (keys ++ List.replicate (maxClients - keys.length) Key.empty)
      passcode := cstr maxTextLen (pickRaidPasscode rand)
      serial := r.serial + 1 }

/-- The first critical section of `handle_minigame_submit`: the entry of the key in a raid that is
still open, the passcode, and the number of the raid. -/
def raidLookup (r : Raid) (now : ℕ) (key : Key) : Option (ℕ × Bytes × ℕ) :=
  if r.deadline ≠ 0 ∧ now < r.deadline then
    (r.pending.findIdx? fun k => k != Key.empty && k == key).map fun i => (i, r.passcode, r.serial)
  else none

/-- The second critical section of `handle_minigame_submit`. -/
def raidClear (r : Raid) (i : ℕ) : Raid := { r with pending := r.pending.set i Key.empty }

/-- The critical section of the timeout thread: the victims, and the raid closed. -/
def raidTimeout (r : Raid) : List Key × Raid :=
  (r.pending.filter (· ≠ Key.empty),
    { r with
      deadline := 0
      pending := r.pending.map fun _ => Key.empty })

/-- The rollback of a raid whose timer could not be started. -/
def raidRollback (r : Raid) : Raid :=
  { r with
    deadline := 0
    pending := List.replicate maxClients Key.empty }

/-! ### All of it -/

/-- What the threads of the server share. -/
structure Shared where
  /-- The directory the server was started in. -/
  cwd : Dir := []
  /-- The documents on the disk. -/
  files : Files
  /-- The records of `users.dat`. -/
  users : UserDb := []
  /-- The market. -/
  market : Market := ⟨[], 0⟩
  /-- The orders. -/
  npcs : List NPCSlot := []
  /-- The round. -/
  round : Round := {}
  /-- The rumor cooldown. -/
  rumor : Rumor := {}
  /-- The police raid. -/
  raid : Raid := {}
  /-- The client table. -/
  clients : List Client := List.replicate maxClients {}
  /-- The descriptors that are open in the kernel. -/
  openFds : List ℕ := []
  /-- `g_doc_id_counter`. -/
  docIdCounter : ℤ := 0
  /-- `g_npc_id_counter`. -/
  npcIdCounter : ℤ := 0
  /-- What `time(NULL)` returns. -/
  clock : ℕ := 0

end UnderFlow
