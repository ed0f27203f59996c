import UnderFlow.Server.Op

/-!
# Programs that run alone

`runAlone` runs a program of the server with no other thread in between: one choice of the outside
for each operation, and a record of the operations it made.

* `runAlone_eq_some` : such a run is its first operation and the run of the rest.
* `runAlone_log` : what every operation keeps holds when the program ends, and what is shown of each
  operation holds of all that were made.
* `endsWithin_of_cost` : a program whose operations all lower a cost ends.
-/

namespace UnderFlow

/-- An operation that was made: the state before it, and what the outside decided. -/
structure Made where
  /-- The state before it. -/
  before : Shared
  /-- The operation. -/
  op : Op
  /-- What the outside decided. -/
  choice : Choice

/-- How a program ended. -/
abbrev Ended (β : Type) := Except (ErrorCode × Bytes) β

variable {α β : Type}

/-- The operations made, the state left, and how the program ended; `none` when the choices run out
or an operation has to wait. -/
def runAlone (prog : α → Action (Next α β)) :
    List Choice → Shared → α → Option (List Made × Shared × Ended β)
  | [], _, _ => none
  | c :: cs, s, pc =>
    match (prog pc).op.exec s c with
    | none => none
    | some (s', r) =>
      match (prog pc).next r with
      | .cont pc' => (runAlone prog cs s' pc').map fun x => (⟨s, (prog pc).op, c⟩ :: x.1, x.2)
      | .ret b => some ([⟨s, (prog pc).op, c⟩], s', .ok b)
      | .fail code reason => some ([⟨s, (prog pc).op, c⟩], s', .error (code, reason))

/-- The packets that were written, with the sockets they were written to. -/
def sentAlone (log : List Made) : List (ℕ × Packet) := log.flatMap fun m => m.op.deliveries m.before

variable {prog : α → Action (Next α β)} {cs : List Choice} {c : Choice} {s s' s'' : Shared} {pc : α}
  {log : List Made} {out : Ended β}

/-- What is left of a run after its first operation. -/
def RunRest (prog : α → Action (Next α β)) (cs : List Choice) (s' s'' : Shared) (log : List Made)
    (out : Ended β) : Next α β → Prop
  | .cont pc' => runAlone prog cs s' pc' = some (log, s'', out)
  | .ret b => log = [] ∧ s'' = s' ∧ out = .ok b
  | .fail code reason => log = [] ∧ s'' = s' ∧ out = .error (code, reason)

/-- **A run** is its first operation and the run of the rest. -/
theorem runAlone_eq_some : runAlone prog cs s pc = some (log, s'', out) ↔
    ∃ c cs' s' r log', cs = c :: cs' ∧ log = ⟨s, (prog pc).op, c⟩ :: log' ∧
      (prog pc).op.exec s c = some (s', r) ∧ RunRest prog cs' s' s'' log' out
        ((prog pc).next r) := by
  rcases cs with _ | ⟨c, cs⟩
  · simp [runAlone]
  · rw [runAlone]
    rcases hexec : (prog pc).op.exec s c with _ | ⟨s', r⟩
    · simp only [reduceCtorEq, false_iff]
      rintro ⟨_, _, _, _, _, ⟨⟩, -, hsome, -⟩
      rw [hexec] at hsome
      cases hsome
    · have hrest : ∀ {P : Shared → (prog pc).op.Ret → List Choice → List Made → Prop},
          (∃ c' cs' s₁ r₁ log', c :: cs = c' :: cs' ∧ log = ⟨s, (prog pc).op, c'⟩ :: log' ∧
            (prog pc).op.exec s c' = some (s₁, r₁) ∧ P s₁ r₁ cs' log') ↔
          ∃ log', log = ⟨s, (prog pc).op, c⟩ :: log' ∧ P s' r cs log' := by
        intro P
        constructor
        · rintro ⟨c', cs', s₁, r₁, log', ⟨⟩, rfl, h, hP⟩
          rw [hexec] at h
          cases h
          exact ⟨log', rfl, hP⟩
        · rintro ⟨log', rfl, hP⟩
          exact ⟨c, cs, s', r, log', rfl, rfl, hexec, hP⟩
      rw [hrest]
      simp only
      cases hnext : (prog pc).next r with
      | cont pc' =>
        rcases hrun : runAlone prog cs s' pc' with _ | ⟨log₁, s₁, out₁⟩
        · simp [RunRest, hrun]
        · simp only [Option.map_some, Option.some.injEq, Prod.mk.injEq, RunRest, hrun]
          constructor
          · rintro ⟨rfl, rfl, rfl⟩
            exact ⟨log₁, rfl, rfl, rfl, rfl⟩
          · rintro ⟨log', rfl, rfl, rfl, rfl⟩
            exact ⟨rfl, rfl, rfl⟩
      | ret b =>
        simp only [Option.some.injEq, Prod.mk.injEq, RunRest]
        constructor
        · rintro ⟨rfl, rfl, rfl⟩
          exact ⟨[], rfl, rfl, rfl, rfl⟩
        · rintro ⟨log', rfl, rfl, rfl, rfl⟩
          exact ⟨rfl, rfl, rfl⟩
      | fail code reason =>
        simp only [Option.some.injEq, Prod.mk.injEq, RunRest]
        constructor
        · rintro ⟨rfl, rfl, rfl⟩
          exact ⟨[], rfl, rfl, rfl, rfl⟩
        · rintro ⟨log', rfl, rfl, rfl, rfl⟩
          exact ⟨rfl, rfl, rfl⟩

/-- What holds after an operation: the invariant where the program goes on, and what is to be shown
where it ends. -/
def Next.Leaves (I : Shared → α → Prop) (P : Shared → Ended β → Prop) (s : Shared) :
    Next α β → Prop
  | .cont pc => I s pc
  | .ret b => P s (.ok b)
  | .fail code reason => P s (.error (code, reason))

/-- **Invariants of runs alone**, and what holds of every operation made. -/
theorem runAlone_log {I : Shared → α → Prop} {P : Shared → Ended β → Prop} {Q : Made → Prop}
    {C : Choice → Prop} (hstep : ∀ s pc c s' r, I s pc → C c →
      (prog pc).op.exec s c = some (s', r) →
      Q ⟨s, (prog pc).op, c⟩ ∧ ((prog pc).next r).Leaves I P s')
    (hI : I s pc) (hcs : ∀ c ∈ cs, C c) (h : runAlone prog cs s pc = some (log, s', out)) :
    P s' out ∧ ∀ m ∈ log, Q m := by
  induction cs generalizing s pc log with
  | nil =>
    rw [runAlone] at h
    cases h
  | cons c cs ih =>
    obtain ⟨_, _, s₁, r, log', heq, rfl, hexec, hrest⟩ := runAlone_eq_some.1 h
    cases heq
    obtain ⟨hmade, hleaves⟩ := hstep s pc c s₁ r hI (hcs c List.mem_cons_self) hexec
    cases hnext : (prog pc).next r <;> rw [hnext] at hrest hleaves
    · obtain ⟨hP, hlog⟩ := ih hleaves (fun c' hc' => hcs c' (List.mem_cons_of_mem c hc')) hrest
      exact ⟨hP, List.forall_mem_cons.2 ⟨hmade, hlog⟩⟩
    · obtain ⟨rfl, rfl, rfl⟩ := hrest
      exact ⟨hleaves, List.forall_mem_singleton.2 hmade⟩
    · obtain ⟨rfl, rfl, rfl⟩ := hrest
      exact ⟨hleaves, List.forall_mem_singleton.2 hmade⟩

/-- What every operation keeps holds when the program ends. -/
theorem runAlone_invariant {I : Shared → α → Prop} {P : Shared → Ended β → Prop}
    {C : Choice → Prop} (hstep : ∀ s pc c s' r, I s pc → C c →
      (prog pc).op.exec s c = some (s', r) → ((prog pc).next r).Leaves I P s')
    (hI : I s pc) (hcs : ∀ c ∈ cs, C c) (h : runAlone prog cs s pc = some (log, s', out)) :
    P s' out :=
  (runAlone_log (Q := fun _ => True)
    (fun s pc c s' r hI hc hexec => ⟨trivial, hstep s pc c s' r hI hc hexec⟩) hI hcs h).1

/-- The program ends after at most `n` operations, whatever the outside decides. -/
def EndsWithin (prog : α → Action (Next α β)) (n : ℕ) (s : Shared) (pc : α) : Prop :=
  ∀ cs : List Choice, n ≤ cs.length → ∃ log s' out, runAlone prog cs s pc = some (log, s', out)

theorem endsWithin_succ {n : ℕ} (h : ∀ c, ∃ s' r, (prog pc).op.exec s c = some (s', r) ∧
      ∀ pc', (prog pc).next r = .cont pc' → EndsWithin prog n s' pc') :
    EndsWithin prog (n + 1) s pc := by
  intro cs hlen
  rcases cs with _ | ⟨c, cs⟩
  · exact absurd hlen (by simp)
  · obtain ⟨s', r, hexec, hrest⟩ := h c
    cases hnext : (prog pc).next r with
    | cont pc' =>
      obtain ⟨log, s'', out, hrun⟩ := hrest pc' hnext cs (Nat.le_of_succ_le_succ hlen)
      exact ⟨_, s'', out, runAlone_eq_some.2 ⟨c, cs, s', r, log, rfl, rfl,
        hexec, by rw [hnext]; exact hrun⟩⟩
    | ret b =>
      exact ⟨_, s', .ok b, runAlone_eq_some.2 ⟨c, cs, s', r, [], rfl, rfl, hexec, by
        rw [hnext]; exact ⟨rfl, rfl, rfl⟩⟩⟩
    | fail code reason =>
      exact ⟨_, s', .error (code, reason), runAlone_eq_some.2 ⟨c, cs, s', r, [], rfl, rfl, hexec, by
        rw [hnext]; exact ⟨rfl, rfl, rfl⟩⟩⟩

theorem endsWithin_mono {n m : ℕ} (h : EndsWithin prog n s pc) (hle : n ≤ m) :
    EndsWithin prog m s pc := fun cs hlen => h cs (hle.trans hlen)

/-- **A program ends** when every operation is enabled and lowers the cost of where it goes on. -/
theorem endsWithin_of_cost {I : Shared → α → Prop} {cost : Shared → α → ℕ}
    (hstep : ∀ s pc, I s pc → ∀ c, ∃ s' r, (prog pc).op.exec s c = some (s', r) ∧
      ∀ pc', (prog pc).next r = .cont pc' → I s' pc' ∧ cost s' pc' < cost s pc)
    (hI : I s pc) : EndsWithin prog (cost s pc + 1) s pc := by
  induction hn : cost s pc using Nat.strong_induction_on generalizing s pc with
  | _ n ih =>
    refine endsWithin_succ fun c => ?_
    obtain ⟨s', r, hexec, hrest⟩ := hstep s pc hI c
    refine ⟨s', r, hexec, fun pc' hpc' => ?_⟩
    obtain ⟨hI', hlt⟩ := hrest pc' hpc'
    exact endsWithin_mono (ih _ (hn ▸ hlt) hI' rfl) (hn ▸ hlt)

end UnderFlow
