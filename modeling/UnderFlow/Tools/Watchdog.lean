import UnderFlow.LTS.Run
import Mathlib.Data.Int.Notation
import Mathlib.Tactic.Common

/-!
# The watchdog

`watchdog.c` as a system of one process: the program point of `main` with the two variables it
shares with the signal handler, and the child it has forked.  A label runs one step of `main`,
delivers a signal (at any program point, the handler then runs to its end), or lets the child end.

The parameter `restarts` says what `signal` promises for a call that the handler interrupts: with
the GNU dialect of the Makefile `waitpid` is restarted (`restarts = true`), elsewhere it returns
`EINTR`.

That the child has been sent a signal is all that is recorded of it.  Between `fork` and `execv` the
child still has the handler of the watchdog: a signal that reaches it there sets its own copy of
`g_stop` and is lost on the server that `execv` starts.

* `Tracked` : where in `main` there is a child, and that `g_child_pid` names it in `waitpid`.
* `Heard` : once `g_stop` is set the child has been sent the signal, if no signal is delivered
  between the loop test and the store of `g_child_pid`.
* `stopKept_of_guard` : then a request to stop is never lost.
* `not_stopKept` : a signal after the loop test leaves the watchdog waiting for an unsuspecting
  server.
* `gone_of_restarts` : with restarted calls no server is left behind, whatever is delivered.
-/

namespace UnderFlow

/-! ### The program -/

/-- The signals `on_terminate` handles. -/
inductive StopSignal
  | sigint
  | sigterm
  deriving DecidableEq, Repr

/-- How a child ended, as `WIFEXITED` and `WIFSIGNALED` tell. -/
inductive WaitStatus
  | exited (code : ℕ)
  | signaled (sig : ℕ)
  deriving DecidableEq, Repr

/-- A forked process that has not been waited for. -/
structure Child where
  /-- Its process id. -/
  pid : ℤ
  /-- `g_stop` was set when it was forked. -/
  late : Bool
  /-- The watchdog has sent it the signal, before or after its `execv`. -/
  signalled : Bool
  /-- How it ended, if it has; `execv` failing is the end with code 127. -/
  status : Option WaitStatus
  deriving DecidableEq, Repr

/-- The program points of `main`. -/
inductive WatchPc
  /-- Before `signal(SIGINT, …)`. -/
  | installInt
  /-- Before `signal(SIGTERM, …)`. -/
  | installTerm
  /-- Before `while (!g_stop)`. -/
  | loopTest
  /-- After the test, before `fork` returns. -/
  | fork
  /-- `fork` has returned, `g_child_pid` is still unset. -/
  | store (pid : ℤ)
  | waitpid (pid : ℤ)
  /-- `waitpid` has returned a status, or failed, and `g_child_pid` is still set. -/
  | clear (pid : ℤ) (w : Option WaitStatus)
  /-- Before `if (g_stop)`. -/
  | stopTest (pid : ℤ) (w : Option WaitStatus)
  /-- Before the `waitpid` that does not block. -/
  | reap (pid : ℤ)
  | sleep
  | done
  deriving DecidableEq, Repr

/-- The watchdog and its child. -/
structure Watchdog where
  /-- `g_stop` -/
  stop : Bool
  /-- `g_child_pid` -/
  childPid : ℤ
  /-- Where `main` is. -/
  pc : WatchPc
  /-- The server it has forked. -/
  child : Option Child
  deriving DecidableEq, Repr

/-- What can happen to the watchdog. -/
inductive WatchLabel
  /-- A step of `main` that only the state decides. -/
  | main
  /-- `fork` returns; a number that is not positive stands for a failure. -/
  | forked (pid : ℤ)
  /-- A signal is delivered to the watchdog. -/
  | signal (sig : StopSignal)
  /-- The child ends. -/
  | ended (status : WaitStatus)
  deriving DecidableEq, Repr

/-- The handler of the signal is in place. -/
def WatchPc.handles : WatchPc → StopSignal → Bool
  | .installInt, _ => false
  | .installTerm, sig => sig == .sigint
  | _, _ => true

/-- `if (pid > 0) kill(pid, sig)`, as the child sees it. -/
def Child.told (c : Child) (pid : ℤ) : Child :=
  if 0 < pid ∧ c.pid = pid then { c with signalled := true } else c

/-- The handler. -/
def Watchdog.onTerminate (s : Watchdog) : Watchdog :=
  { s with stop := true, child := s.child.map (·.told s.childPid) }

/-- A signal is delivered: the default action ends a watchdog without handlers; the handler runs,
and a `waitpid` that is not restarted returns `EINTR` to the loop, which ends as `g_stop` is set. -/
def Watchdog.deliver (restarts : Bool) (s : Watchdog) (sig : StopSignal) : Watchdog :=
  if s.pc.handles sig then
    match s.pc with
    | .waitpid pid =>
      { s.onTerminate with pc := if restarts then .waitpid pid else .clear pid none }
    | _ => s.onTerminate
  else { s with pc := .done }

/-- A step of `main`. -/
def Watchdog.main (s : Watchdog) : Option Watchdog :=
  match s.pc with
  | .installInt => some { s with pc := .installTerm }
  | .installTerm => some { s with pc := .loopTest }
  | .loopTest => some { s with pc := if s.stop then .done else .fork }
  | .fork => none
  | .store pid => some { s with childPid := pid, pc := .waitpid pid }
  | .waitpid pid =>
    -- blocks while the child runs
    match s.child with
    | some c =>
      if c.pid = pid ∧ c.status.isSome then
        some { s with child := none, pc := .clear pid c.status }
      else none
    | none => none
  | .clear pid w => some { s with childPid := -1, pc := .stopTest pid w }
  | .stopTest pid w =>
    if s.stop then some { s with pc := if w.isNone then .reap pid else .done }
    else if w = some (.exited 0) then some { s with pc := .done }
    else some { s with pc := .sleep }
  | .reap pid =>
    some { s with
      child := s.child.filter fun c => !(decide (c.pid = pid) && c.status.isSome), pc := .done }
  | .sleep => some { s with pc := .loopTest }
  | .done => none

/-- `fork` returns. -/
def Watchdog.forked (s : Watchdog) (pid : ℤ) : Option Watchdog :=
  if s.pc = .fork then
    if 0 < pid then
      some { s with child := some ⟨pid, s.stop, false, none⟩, pc := .store pid }
    else some { s with pc := .sleep }
  else none

/-- The child ends. -/
def Watchdog.ended (s : Watchdog) (status : WaitStatus) : Option Watchdog :=
  match s.child with
  | some c =>
    if c.status.isNone then some { s with child := some { c with status := some status } } else none
  | none => none

/-- The watchdog as a system. -/
def watchdog (restarts : Bool) : System Watchdog WatchLabel where
  next s
    | .main => s.main
    | .forked pid => s.forked pid
    | .signal sig => if s.pc = .done then none else some (s.deliver restarts sig)
    | .ended status => s.ended status

/-- The watchdog is started. -/
def Watchdog.start : Watchdog := ⟨false, -1, .installInt, none⟩

/-! ### Requests to stop -/

/-- No request to stop is lost. -/
structure StopKept (s : Watchdog) : Prop where
  /-- Nobody waits for a running child that has never been sent the signal. -/
  waits : ∀ pid c, s.stop = true → s.pc = .waitpid pid → s.child = some c → c.status = none →
    c.signalled = true
  /-- No server forked after the request outlives the watchdog. -/
  ends : ∀ c, s.pc = .done → s.child = some c → c.status = none → c.late = false

/-- No signal comes between the loop test and the store of `g_child_pid`: `fork` succeeds only
while `g_stop` is unset, and none is delivered after it while the child runs. -/
def StopGuard (s : Watchdog) : WatchLabel → Prop
  | .forked pid => 0 < pid → s.stop = false
  | .signal _ => ∀ c ∈ s.child, s.pc = .store c.pid → c.status ≠ none
  | _ => True

instance (s : Watchdog) (l : WatchLabel) : Decidable (StopGuard s l) := by
  cases l <;> unfold StopGuard <;> infer_instance

/-! ### The child of each program point -/

variable {restarts : Bool} {s s' : Watchdog} {l : WatchLabel}

/-- Where in `main` there is a child. -/
def Tracked (restarts : Bool) (s : Watchdog) : Prop :=
  match s.pc with
  | .store pid => ∃ c, s.child = some c ∧ c.pid = pid ∧ 0 < pid
  | .waitpid pid => ∃ c, s.child = some c ∧ c.pid = pid ∧ 0 < pid ∧ s.childPid = pid
  -- an unreaped child is left here only by an `EINTR`, after the handler
  | .clear _ none | .stopTest _ none | .reap _ =>
    s.stop = true ∧ (restarts = true → s.child = none)
  | .done => restarts = true → s.child = none
  | _ => s.child = none

theorem tracked_start : Tracked restarts .start := rfl

theorem tracked_main (h : Tracked restarts s) (hn : s.main = some s') : Tracked restarts s' := by
  obtain ⟨stop, childPid, pc, child⟩ := s
  cases pc with
  | installInt | installTerm | sleep =>
    cases hn
    exact h
  | loopTest =>
    cases hn
    cases stop
    · exact h
    · exact fun _ => h
  | fork | done => cases hn
  | store pid =>
    cases hn
    obtain ⟨c, hc, hpid, hpos⟩ := h
    exact ⟨c, hc, hpid, hpos, rfl⟩
  | waitpid pid =>
    obtain ⟨c, hc, hpid, -, -⟩ := h
    obtain rfl : child = some c := hc
    by_cases hends : c.pid = pid ∧ c.status.isSome = true
    · rw [Watchdog.main] at hn
      obtain ⟨st, hst⟩ := Option.isSome_iff_exists.1 hends.2
      simp only [if_pos hends] at hn
      cases hn
      rw [hst]
      rfl
    · simp only [Watchdog.main, if_neg hends] at hn
      cases hn
  | clear pid w =>
    cases hn
    cases w <;> exact h
  | stopTest pid w =>
    cases w with
    | none =>
      obtain rfl : stop = true := h.1
      cases hn
      exact h
    | some st =>
      have hnone : child = none := h
      subst hnone
      simp only [Watchdog.main] at hn
      by_cases hstop : stop = true
      · rw [if_pos hstop] at hn
        cases hn
        exact fun _ => rfl
      · rw [if_neg hstop] at hn
        split_ifs at hn <;> cases hn
        · exact fun _ => rfl
        · rfl
  | reap pid =>
    cases hn
    intro hr
    have hnone : child = none := h.2 hr
    subst hnone
    rfl

theorem tracked_forked {pid : ℤ} (h : Tracked restarts s) (hn : s.forked pid = some s') :
    Tracked restarts s' := by
  unfold Watchdog.forked at hn
  split_ifs at hn with hpc hpos <;> cases hn
  · exact ⟨_, rfl, rfl, hpos⟩
  · rw [Tracked, hpc] at h
    exact h

@[simp] theorem told_pid (c : Child) (pid : ℤ) : (c.told pid).pid = c.pid := by
  unfold Child.told
  split_ifs <;> rfl

@[simp] theorem told_late (c : Child) (pid : ℤ) : (c.told pid).late = c.late := by
  unfold Child.told
  split_ifs <;> rfl

@[simp] theorem told_status (c : Child) (pid : ℤ) : (c.told pid).status = c.status := by
  unfold Child.told
  split_ifs <;> rfl

theorem told_of_signalled {c : Child} (h : c.signalled = true) (pid : ℤ) :
    (c.told pid).signalled = true := by
  unfold Child.told
  split_ifs
  · rfl
  · exact h

theorem told_self {c : Child} (h : 0 < c.pid) : (c.told c.pid).signalled = true := by
  rw [Child.told, if_pos ⟨h, rfl⟩]

theorem tracked_signal {sig : StopSignal} (h : Tracked restarts s) :
    Tracked restarts (s.deliver restarts sig) := by
  obtain ⟨stop, childPid, pc, child⟩ := s
  cases pc with
  | installInt => exact fun _ => h
  | installTerm =>
    obtain rfl : child = none := h
    cases sig
    · rfl
    · exact fun _ => rfl
  | loopTest | fork | sleep =>
    obtain rfl : child = none := h
    rfl
  | store pid =>
    obtain ⟨c, hc, hpid, hpos⟩ := h
    obtain rfl : child = some c := hc
    exact ⟨c.told childPid, rfl, by simpa using hpid, hpos⟩
  | waitpid pid =>
    obtain ⟨c, hc, hpid, hpos, hchild⟩ := h
    obtain rfl : child = some c := hc
    cases restarts with
    | true => exact ⟨c.told childPid, rfl, by simpa using hpid, hpos, hchild⟩
    | false => exact ⟨rfl, fun hr => absurd hr (by simp)⟩
  | clear pid w | stopTest pid w =>
    cases w with
    | none =>
      refine ⟨rfl, fun hr => ?_⟩
      have hnone : child = none := h.2 hr
      subst hnone
      rfl
    | some st =>
      obtain rfl : child = none := h
      rfl
  | reap pid =>
    refine ⟨rfl, fun hr => ?_⟩
    have hnone : child = none := h.2 hr
    subst hnone
    rfl
  | done =>
    intro hr
    have hnone : child = none := h hr
    subst hnone
    rfl

theorem tracked_ended {status : WaitStatus} (h : Tracked restarts s)
    (hn : s.ended status = some s') : Tracked restarts s' := by
  obtain ⟨stop, childPid, pc, child⟩ := s
  cases child with
  | none => cases hn
  | some c =>
    simp only [Watchdog.ended] at hn
    split_ifs at hn
    cases hn
    cases pc with
    | installInt | installTerm | loopTest | fork | sleep => cases h
    | store pid =>
      obtain ⟨_, hc, hpid, hpos⟩ := h
      cases hc
      exact ⟨_, rfl, hpid, hpos⟩
    | waitpid pid =>
      obtain ⟨_, hc, hpid, hpos, hchild⟩ := h
      cases hc
      exact ⟨_, rfl, hpid, hpos, hchild⟩
    | clear pid w | stopTest pid w =>
      cases w with
      | none => exact ⟨h.1, fun hr => absurd (h.2 hr) (by simp)⟩
      | some st => cases h
    | reap pid => exact ⟨h.1, fun hr => absurd (h.2 hr) (by simp)⟩
    | done => exact fun hr => absurd (h hr) (by simp)

/-- **Every step keeps track of the child.** -/
theorem tracked_next (h : Tracked restarts s) (hn : (watchdog restarts).next s l = some s') :
    Tracked restarts s' := by
  cases l with
  | main => exact tracked_main h hn
  | forked pid => exact tracked_forked h hn
  | signal sig =>
    simp only [watchdog] at hn
    split_ifs at hn
    cases hn
    exact tracked_signal h
  | ended status => exact tracked_ended h hn

theorem tracked_of_reach {C : Watchdog → WatchLabel → Prop}
    (h : (watchdog restarts).Reach C .start s) : Tracked restarts s :=
  h.invariant tracked_start fun _ _ _ _ hI _ hn => tracked_next hI hn

/-- **No server is left behind** by a watchdog whose `waitpid` is restarted. -/
theorem gone_of_restarts {C : Watchdog → WatchLabel → Prop}
    (h : (watchdog true).Reach C .start s) (hpc : s.pc = .done) : s.child = none := by
  have hT := tracked_of_reach h
  rw [Tracked, hpc] at hT
  exact hT rfl

/-! ### What the child has heard -/

/-- The child was forked before the request to stop, and has been sent it since. -/
def Heard (s : Watchdog) : Prop :=
  ∀ c, s.child = some c → c.late = false ∧
    (s.stop = true → c.status = none → c.signalled = true)

/-- A step of `main` forks no child and sends no signal. -/
theorem main_frame (hn : s.main = some s') :
    s'.stop = s.stop ∧ ∀ c, s'.child = some c → s.child = some c := by
  unfold Watchdog.main at hn
  split at hn
  case h_6 pid _ =>
    -- only `waitpid` looks at the child
    rcases hchild : s.child with _ | c <;> rw [hchild] at hn
    · cases hn
    · simp only at hn
      split_ifs at hn
      cases hn
      exact ⟨rfl, by simp⟩
  case h_8 pid w _ => split_ifs at hn <;> cases hn <;> exact ⟨rfl, fun _ h => h⟩
  case h_9 pid _ =>
    cases hn
    exact ⟨rfl, fun c hc => (Option.filter_eq_some_iff.1 hc).1⟩
  all_goals
    cases hn
    try exact ⟨rfl, fun _ h => h⟩

theorem heard_main (h : Heard s) (hn : s.main = some s') : Heard s' := by
  obtain ⟨hstop, hchild⟩ := main_frame hn
  intro c hc
  rw [hstop]
  exact h c (hchild c hc)

theorem heard_forked {pid : ℤ} (h : Heard s) (hC : 0 < pid → s.stop = false)
    (hn : s.forked pid = some s') : Heard s' := by
  unfold Watchdog.forked at hn
  split_ifs at hn with hpc hpos <;> cases hn
  · rintro c ⟨rfl⟩
    have hstop := hC hpos
    exact ⟨hstop, fun hstop' => absurd (hstop.symm.trans hstop') (by simp)⟩
  · exact h

/-- Whoever still runs when a signal is delivered has been sent one, or is sent this one. -/
theorem signalled_told {c : Child} {sig : StopSignal} (hT : Tracked restarts s) (h : Heard s)
    (hC : StopGuard s (.signal sig)) (hpc : s.pc ≠ .done) (hc : s.child = some c)
    (hruns : c.status = none) : (c.told s.childPid).signalled = true := by
  by_cases hstop : s.stop = true
  · exact told_of_signalled ((h c hc).2 hstop hruns) _
  obtain ⟨stop, childPid, pc, child⟩ := s
  obtain rfl : child = some c := hc
  cases pc with
  | installInt | installTerm | loopTest | fork | sleep => cases hT
  | store pid =>
    obtain ⟨_, hc, rfl, -⟩ := hT
    cases hc
    exact absurd hruns (hC c rfl rfl)
  | waitpid pid =>
    obtain ⟨_, hc, rfl, hpos, hchild⟩ := hT
    cases hc
    obtain rfl : childPid = c.pid := hchild
    exact told_self hpos
  | clear pid w | stopTest pid w =>
    cases w with
    | none => exact absurd hT.1 hstop
    | some st => cases hT
  | reap pid => exact absurd hT.1 hstop
  | done => exact absurd rfl hpc

theorem heard_signal {sig : StopSignal} (hT : Tracked restarts s) (h : Heard s)
    (hC : StopGuard s (.signal sig)) (hpc : s.pc ≠ .done) : Heard (s.deliver restarts sig) := by
  unfold Watchdog.deliver
  by_cases hhandles : s.pc.handles sig = true
  · rw [if_pos hhandles]
    have hheard : Heard s.onTerminate := by
      intro c' hc'
      obtain ⟨c, hc, rfl⟩ := Option.map_eq_some_iff.1 hc'
      refine ⟨(told_late c _).trans (h c hc).1, fun _ hruns => ?_⟩
      rw [told_status] at hruns
      exact signalled_told hT h hC hpc hc hruns
    split <;> exact hheard
  · rw [if_neg hhandles]
    exact h

theorem heard_ended {status : WaitStatus} (h : Heard s) (hn : s.ended status = some s') :
    Heard s' := by
  unfold Watchdog.ended at hn
  rcases hchild : s.child with _ | c <;> rw [hchild] at hn
  · cases hn
  · simp only at hn
    split_ifs at hn
    cases hn
    rintro c' ⟨rfl⟩
    exact ⟨(h c hchild).1, fun _ hruns => absurd hruns (by simp)⟩

/-- **Every guarded step lets the child hear of the request.** -/
theorem heard_next (hT : Tracked restarts s) (h : Heard s) (hC : StopGuard s l)
    (hn : (watchdog restarts).next s l = some s') : Heard s' := by
  cases l with
  | main => exact heard_main h hn
  | forked pid => exact heard_forked h hC hn
  | signal sig =>
    simp only [watchdog] at hn
    split_ifs at hn with hpc
    cases hn
    exact heard_signal hT h hC hpc
  | ended status => exact heard_ended h hn

/-! ### Runs -/

/-- **A request to stop is never lost**, over any number of crashes, if none is delivered between
the loop test and the store of `g_child_pid`. -/
theorem stopKept_of_guard (h : (watchdog restarts).Reach StopGuard .start s) : StopKept s := by
  have hheard : Heard s := by
    refine h.invariant (fun c hc => by cases hc) fun s l s' hr hI hC hn => ?_
    exact heard_next (tracked_of_reach hr) hI hC hn
  refine ⟨fun _ c hstop _ hc hruns => ?_, fun c _ hc _ => ?_⟩
  · exact (hheard c hc).2 hstop hruns
  · exact (hheard c hc).1

/-- A crash and a restart, then a request to stop while the second server runs. -/
def stopScript : List WatchLabel :=
  [.main, .main, .main, .forked 100, .main, .ended (.exited 1), .main, .main, .main, .main,
    .main, .forked 101, .main, .signal .sigterm]

/-- The request reaches the server that was started after a crash. -/
theorem stopKept_restarted : ∃ s, (watchdog true).Reach StopGuard .start s ∧ s.stop = true ∧
    s.pc = .waitpid 101 ∧ StopKept s := by
  obtain ⟨s, hr, hf⟩ := System.exists_reach_of_any (A := watchdog true) StopGuard .start
    stopScript (fun s => s.stop && decide (s.pc = .waitpid 101)) (by decide +kernel)
  rw [Bool.and_eq_true, decide_eq_true_eq] at hf
  exact ⟨s, hr, hf.1, hf.2, stopKept_of_guard hr⟩

/-- **A signal after the loop test is lost**: the watchdog waits for a server that nobody stops. -/
theorem not_stopKept : ∃ s, (watchdog true).Reach System.anyStep .start s ∧ ¬ StopKept s := by
  obtain ⟨s, hr, hf⟩ := System.exists_reach_of_any (A := watchdog true) System.anyStep .start
    [.main, .main, .main, .signal .sigterm, .forked 100, .main]
    (fun s => decide (s = ⟨true, 100, .waitpid 100, some ⟨100, true, false, none⟩⟩))
    (by decide +kernel)
  obtain rfl := of_decide_eq_true hf
  refine ⟨_, hr, fun h => ?_⟩
  exact absurd (h.waits 100 _ rfl rfl rfl rfl) (by simp)

end UnderFlow
