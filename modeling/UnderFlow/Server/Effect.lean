import UnderFlow.Server.Step

/-!
# What one step can do

Every operation writes at most one of the stores of the shared state, and leaves the others alone.

* `Op.store` : the store an operation writes.
* `exec_frame` : nothing else changes; the `exec_users`, `exec_files`, … read it off store by store.
* `Action.Steps` : an action as a relation between states, and `Action.steps_map` for handlers run
  inside others.
* `server_run` : the step of a thread of the server.
-/

namespace UnderFlow

/-! ### Stores -/

/-- The parts of the shared state. -/
inductive Store where
  | files | users | market | npcs | round | rumor | raid | clients | openFds | docIds | npcIds
  deriving DecidableEq

/-- The store an operation writes, if it writes any. -/
@[simp] def Op.store : Op → Option Store
  | .marketTake _ | .marketAdd _ _ _ _ | .marketDespawnAged | .freezeTags _ | .unfreezeTags _
  | .marketInit => some .market
  | .npcTake _ | .npcAdd _ _ _ | .npcDespawnAged _ _ | .npcInit => some .npcs
  | .rename _ _ _ | .unlink _ _ | .writeMaster _ | .mkdir _ => some .files
  | .userdbAppend _ | .userdbUpdateAt _ _ | .userdbUpdateIndeterminate | .userdbBurnAt _
  | .userdbResetRound _ => some .users
  | .roundPayoff _ _ | .roundEndClaim | .roundEndRelease | .roundReset => some .round
  | .rumorEnter | .rumorLeave _ | .rumorReset => some .rumor
  | .raidLaunchAll | .raidLaunchSelf _ | .raidClear _ | .raidTimeout | .raidEnd
  | .raidRollback => some .raid
  | .clientAdd _ | .clientRegister _ _ | .clientRemove _ => some .clients
  | .accept | .close _ => some .openFds
  | .nextDocId => some .docIds
  | .nextNpcId => some .npcIds
  | _ => none

/-- `s`, with one store taken from `s'`. -/
def Shared.patch (s s' : Shared) : Option Store → Shared
  | none => s
  | some .files => { s with files := s'.files }
  | some .users => { s with users := s'.users }
  | some .market => { s with market := s'.market }
  | some .npcs => { s with npcs := s'.npcs }
  | some .round => { s with round := s'.round }
  | some .rumor => { s with rumor := s'.rumor }
  | some .raid => { s with raid := s'.raid }
  | some .clients => { s with clients := s'.clients }
  | some .openFds => { s with openFds := s'.openFds }
  | some .docIds => { s with docIdCounter := s'.docIdCounter }
  | some .npcIds => { s with npcIdCounter := s'.npcIdCounter }

/-- `s'` differs from `s` in the given store at most. -/
def Shared.Frame (s s' : Shared) (st : Option Store) : Prop := s' = s.patch s' st

variable {s s' : Shared} {c : Choice} {o : Op} {r : o.Ret}

/-- **An operation changes its own store only.** -/
theorem exec_frame (h : o.exec s c = some (s', r)) : s.Frame s' o.store := by
  cases o <;> simp only [Op.exec, Op.store, Shared.Frame, Shared.patch] at h ⊢ <;>
    (try split at h) <;>
    (try split at h) <;> simp only [Option.some.injEq, Prod.mk.injEq, reduceCtorEq] at h <;>
    first
      | exact h.elim
      | (obtain ⟨rfl, -⟩ := h; rfl)

section Frame

variable {st : Option Store}

namespace Shared.Frame

theorem cwd (h : s.Frame s' st) : s'.cwd = s.cwd := by
  refine (congrArg Shared.cwd h).trans ?_
  rcases st with _ | st
  · rfl
  · cases st <;> rfl

theorem clock (h : s.Frame s' st) : s'.clock = s.clock := by
  refine (congrArg Shared.clock h).trans ?_
  rcases st with _ | st
  · rfl
  · cases st <;> rfl

theorem files (h : s.Frame s' st) (ho : st ≠ some .files) : s'.files = s.files := by
  refine (congrArg Shared.files h).trans ?_
  rcases st with _ | st
  · rfl
  · cases st <;> first | rfl | exact absurd rfl ho

theorem users (h : s.Frame s' st) (ho : st ≠ some .users) : s'.users = s.users := by
  refine (congrArg Shared.users h).trans ?_
  rcases st with _ | st
  · rfl
  · cases st <;> first | rfl | exact absurd rfl ho

theorem market (h : s.Frame s' st) (ho : st ≠ some .market) : s'.market = s.market := by
  refine (congrArg Shared.market h).trans ?_
  rcases st with _ | st
  · rfl
  · cases st <;> first | rfl | exact absurd rfl ho

theorem npcs (h : s.Frame s' st) (ho : st ≠ some .npcs) : s'.npcs = s.npcs := by
  refine (congrArg Shared.npcs h).trans ?_
  rcases st with _ | st
  · rfl
  · cases st <;> first | rfl | exact absurd rfl ho

theorem round (h : s.Frame s' st) (ho : st ≠ some .round) : s'.round = s.round := by
  refine (congrArg Shared.round h).trans ?_
  rcases st with _ | st
  · rfl
  · cases st <;> first | rfl | exact absurd rfl ho

theorem rumor (h : s.Frame s' st) (ho : st ≠ some .rumor) : s'.rumor = s.rumor := by
  refine (congrArg Shared.rumor h).trans ?_
  rcases st with _ | st
  · rfl
  · cases st <;> first | rfl | exact absurd rfl ho

theorem raid (h : s.Frame s' st) (ho : st ≠ some .raid) : s'.raid = s.raid := by
  refine (congrArg Shared.raid h).trans ?_
  rcases st with _ | st
  · rfl
  · cases st <;> first | rfl | exact absurd rfl ho

theorem clients (h : s.Frame s' st) (ho : st ≠ some .clients) : s'.clients = s.clients := by
  refine (congrArg Shared.clients h).trans ?_
  rcases st with _ | st
  · rfl
  · cases st <;> first | rfl | exact absurd rfl ho

theorem openFds (h : s.Frame s' st) (ho : st ≠ some .openFds) : s'.openFds = s.openFds := by
  refine (congrArg Shared.openFds h).trans ?_
  rcases st with _ | st
  · rfl
  · cases st <;> first | rfl | exact absurd rfl ho

theorem docIdCounter (h : s.Frame s' st) (ho : st ≠ some .docIds) :
    s'.docIdCounter = s.docIdCounter := by
  refine (congrArg Shared.docIdCounter h).trans ?_
  rcases st with _ | st
  · rfl
  · cases st <;> first | rfl | exact absurd rfl ho

theorem npcIdCounter (h : s.Frame s' st) (ho : st ≠ some .npcIds) :
    s'.npcIdCounter = s.npcIdCounter := by
  refine (congrArg Shared.npcIdCounter h).trans ?_
  rcases st with _ | st
  · rfl
  · cases st <;> first | rfl | exact absurd rfl ho

end Shared.Frame

end Frame

/-! ### Actions as relations -/

variable {α β γ : Type}

/-- The action leads from `s` to `s'`, and its program goes on with `b`. -/
def Action.Steps (a : Action β) (s : Shared) (c : Choice) (s' : Shared) (b : β) : Prop :=
  ∃ r, a.op.exec s c = some (s', r) ∧ b = a.next r

@[simp] theorem Action.steps_mk {o : Op} {f : o.Ret → β} {b : β} :
    (Action.mk o f).Steps s c s' b ↔ ∃ r, o.exec s c = some (s', r) ∧ b = f r := Iff.rfl

@[simp] theorem Action.steps_map {a : Action β} {f : β → γ} {g : γ} :
    (a.map f).Steps s c s' g ↔ ∃ b, a.Steps s c s' b ∧ g = f b := by
  constructor
  · rintro ⟨r, hr, rfl⟩
    exact ⟨_, ⟨r, hr, rfl⟩, rfl⟩
  · rintro ⟨b, ⟨r, hr, rfl⟩, rfl⟩
    exact ⟨r, hr, rfl⟩

theorem Action.map_map {a : Action β} {f : β → γ} {δ : Type} {g : γ → δ} :
    (a.map f).map g = a.map fun b => g (f b) := rfl

theorem Action.Steps.frame {a : Action β} {b : β} (h : a.Steps s c s' b) :
    s.Frame s' a.op.store := by
  obtain ⟨r, hr, -⟩ := h
  exact exec_frame hr

/-- A thread an operation starts is at the first point of its program. -/
theorem spawned_start {o : Op} {r : o.Ret} {u : Thread} (h : u ∈ o.spawned r) :
    (∃ n : NewThread, u = n.start) ∨ ∃ sock, o = .clientAdd sock ∧ u = .login sock .recv := by
  cases o <;> simp only [Op.spawned, List.not_mem_nil] at h <;> split_ifs at h <;>
    simp only [List.mem_singleton, List.not_mem_nil] at h
  · exact .inr ⟨_, rfl, h⟩
  · exact .inl ⟨_, h⟩

/-- The thread a label runs. -/
def threadAt (p : Server) : Label → Option Thread
  | .run t _ => p.threads[t]?
  | .env _ => none

/-- The operation a label runs. -/
def opAt (p : Server) (l : Label) : Option Op :=
  (threadAt p l).bind fun th => th.action.map (·.op)

/-- The choice of a label. -/
def choiceOf : Label → Choice
  | .run _ c => c
  | .env _ => {}

theorem opAt_run {p : Server} {t : ℕ} {th : Thread} {a : Action Thread}
    (hth : p.threads[t]? = some th) (ha : th.action = some a) : opAt p (.run t c) = some a.op := by
  simp [opAt, threadAt, hth, ha]

/-- **The step of a thread of the server.** -/
theorem server_run {p p' : Server} {t : ℕ} (h : server.next p (.run t c) = some p') :
    ∃ th a r, p.threads[t]? = some th ∧ th.action = some a ∧
      a.op.exec p.shared c = some (p'.shared, r) ∧
      p'.threads = p.threads.set t (a.next r) ++ a.op.spawned r := by
  obtain ⟨th, sh, th', new, hth, hs, rfl⟩ := Pool.next_run.1 h
  obtain ⟨a, r, ha, hr, rfl, rfl⟩ := threadStep_eq_some.1 hs
  exact ⟨th, a, r, hth, ha, hr, rfl⟩

/-- A step of the server is an operation of a thread, or time that passes. -/
theorem server_step_cases {p p' : Server} {l : Label} (h : server.next p l = some p') :
    (∃ o r, opAt p l = some o ∧ o.exec p.shared (choiceOf l) = some (p'.shared, r)) ∨
      (opAt p l = none ∧
        ∃ seconds, p'.shared = { p.shared with clock := p.shared.clock + seconds }) := by
  cases l with
  | run t c =>
    obtain ⟨th, a, r, hth, ha, hr, -⟩ := server_run h
    exact .inl ⟨a.op, r, opAt_run hth ha, hr⟩
  | env seconds =>
    obtain rfl := Pool.next_env.1 h
    exact .inr ⟨rfl, seconds, rfl⟩

end UnderFlow
