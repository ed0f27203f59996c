import UnderFlow.LTS.Pool
import UnderFlow.Server.Session

/-!
# The server

`main` of `server_main.c`, the threads of the server, and the server as a pool of threads.

* `Thread.action` : the next action of a thread.
* `server` : the interleaving of all threads; the environment lets time pass.
* `boot` : the state in which `main` begins, on a given data directory.
-/

namespace UnderFlow

/-! ### The main thread -/

/-- The program points of `main`. -/
inductive Main where
  | marketInit
  | npcInit
  | seed (pc : Seed)
  | startEvents
  | accept
  | add (sock : ℕ)
  | reject (sock : ℕ)

/-- Returns when the server exits. -/
def mainThread : Main → Action (Next Main)
  | .marketInit => ⟨.marketInit, fun _ => .cont .npcInit⟩
  | .npcInit => ⟨.npcInit, fun _ =>
      match Seed.docNext seedDocs with
      | .cont pc => .cont (.seed pc)
      | _ => .cont .startEvents⟩
  | .seed pc => (seedMarketAndNpc pc).map fun
      | .cont pc => .cont (.seed pc)
      | _ => .cont .startEvents
  | .startEvents => ⟨.pthreadCreate .event, fun ok => if ok then .cont .accept else .ret ()⟩
  | .accept => ⟨.accept, fun sock => .cont (.add sock)⟩
  | .add sock =>
    ⟨.clientAdd sock, fun added => if added then .cont .accept else .cont (.reject sock)⟩
  | .reject sock => ⟨.close sock, fun _ => .cont .accept⟩

/-! ### Threads -/

/-- The threads of the server, each with its arguments and its program point. -/
inductive Thread where
  | main (pc : Main)
  | login (sock : ℕ) (pc : Login)
  | session (sock : ℕ) (key : Key) (pc : Command)
  | disconnect (sock : ℕ) (pc : Disconnect)
  | event (v : EventVars) (pc : Event)
  | npcSequence (pc : NpcSequence)
  | leakRecovery (mask : Tags) (durationSec : ℕ) (pc : LeakRecovery)
  | raidTimeout (serial : ℕ) (pc : RaidTimeout)
  | roundEndTimer (pc : RoundEndTimer)
  | finished

/-- A thread that ends when its program returns. -/
def Thread.resume {α : Type} (f : α → Thread) : Next α → Thread
  | .cont pc => f pc
  | _ => .finished

/-- Where a session goes on after an action. -/
def Thread.afterCommand (sock : ℕ) (key : Key) : Next Command → Thread
  | .cont pc => .session sock key pc
  | _ => .disconnect sock .remove

/-- The next action of a thread. -/
def Thread.action : Thread → Option (Action Thread)
  | .main pc => some ((mainThread pc).map (Thread.resume .main))
  | .login sock pc => some ((clientLogin sock pc).map fun
      | .cont pc => .login sock pc
      | .ret (some key) => .session sock key .recv
      | _ => .disconnect sock .remove)
  | .session sock key pc => some ((clientLoop sock key pc).map fun
      | .cont pc => .session sock key pc
      | _ => .disconnect sock .remove)
  | .disconnect sock pc => some ((clientDisconnect sock pc).map (Thread.resume (.disconnect sock)))
  | .event v pc => some ((eventThreadFunc v pc).map fun p => .event p.1 p.2)
  | .npcSequence pc => some ((eventDoNpcSequence pc).map (Thread.resume .npcSequence))
  | .leakRecovery mask dur pc =>
      some ((leakRecoveryThread mask dur pc).map (Thread.resume (.leakRecovery mask dur)))
  | .raidTimeout serial pc =>
      some ((periodicRaidTimeoutThread pc).map (Thread.resume (.raidTimeout serial)))
  | .roundEndTimer pc => some ((roundEndTimerThread pc).map (Thread.resume .roundEndTimer))
  | .finished => none

/-- The first point of a new thread. -/
def NewThread.start : NewThread → Thread
  | .event => .event {} .start
  | .npcSequence => .npcSequence .full
  | .leakRecovery mask dur => .leakRecovery mask dur .start
  | .raidTimeout serial => .raidTimeout serial .start
  | .roundEndTimer => .roundEndTimer .start

/-- The threads an operation starts. -/
def Op.spawned : (o : Op) → o.Ret → List Thread
  | .pthreadCreate t, ok => if ok then [t.start] else []
  -- the handler is started in the critical section that fills the slot
  | .clientAdd sock, ok => if ok then [.login sock .recv] else []
  | _, _ => []

/-! ### The pool -/

/-- One action of a thread. -/
def threadStep (s : Shared) (th : Thread) (c : Choice) : Option (Shared × Thread × List Thread) :=
  match th.action with
  | none => none
  | some a =>
    match a.op.exec s c with
    | none => none
    | some (s', r) => some (s', a.next r, a.op.spawned r)

theorem threadStep_eq_some {s s' : Shared} {th th' : Thread} {new : List Thread} {c : Choice} :
    threadStep s th c = some (s', th', new) ↔ ∃ a r, th.action = some a ∧
      a.op.exec s c = some (s', r) ∧ th' = a.next r ∧ new = a.op.spawned r := by
  simp only [threadStep]
  constructor
  · intro h
    split at h
    · cases h
    · rename_i a ha
      split at h
      · cases h
      · rename_i s₁ r hr
        cases h
        exact ⟨a, r, ha, hr, rfl, rfl⟩
  · rintro ⟨a, r, ha, hr, rfl, rfl⟩
    simp [ha, hr]

/-- The server: its threads and what they share. -/
abbrev Server := Pool Shared Thread

/-- Run a thread, or let some seconds pass. -/
abbrev Label := PoolLabel Choice ℕ

/-- **The server**: all threads, interleaved action by action. -/
def server : System Server Label :=
  Pool.system threadStep fun s seconds => { s with clock := s.clock + seconds }

/-- The state in which `main` begins, on the files and the database it finds.  The directories of
`sandbox_global_init` are expected to be there. -/
def boot (cwd : Dir) (files : Files) (users : UserDb) (clock : ℕ) : Server where
  shared := { cwd := cwd, files := files, users := users, clock := clock }
  threads := [.main .marketInit]

/-! ### Scripts -/

/-- The thread runs for some steps in which nothing fails. -/
def steps (t n : ℕ) : List Label := List.replicate n (.run t {})

/-- The thread receives a request. -/
def receive (t : ℕ) (req : Request) : Label := .run t { request := some req }

/-- A new server in the root directory, with its two empty directories and no records. -/
def freshBoot : Server := boot [] ⟨[masterDir [], usersDir []], fun _ => []⟩ [] 1

/-- The main thread sets up the game and starts the event thread. -/
def startUp : List Label := steps 0 13

/-- The main thread accepts a connection. -/
def connect (fd : ℕ) : List Label := .run 0 { fd := fd } :: steps 0 1

/-- The handler `t` logs the key in while only the seeds are on the boards; a new key is appended
in one more step. -/
def logIn (t : ℕ) (key : Key) : List Label := receive t (.login key) :: steps t 16

end UnderFlow
