import UnderFlow.LTS.Pool
import Mathlib.Data.Nat.Find

/-!
# Endless runs of a pool

* `Comes next Q` : whatever steps are taken, `Q` holds after finitely many of them.
* `Comes.map` : a program that is run inside another one.
* `System.Endless` : an infinite run; `forget` and `record` take its history away and add it.
* `Pool.Fair W` : a thread that can run again and again is run, unless `W` excuses it.
* `Pool.Fair.narrow` : an excuse that ends by itself is none.
* `Pool.comes_of_runs` : a thread that is run while `Q` does not hold comes to `Q`, whatever the
  other threads do in between.
* `Pool.runs_of_fair` : a thread that could run again and again if it stayed where it is will run.
-/

namespace UnderFlow

/-! ### Finitely many steps -/

section Comes

variable {α β : Type*} {next : α → α → Prop} {next' : β → β → Prop} {Q : α → Prop} {Q' : β → Prop}
  {x : α}

/-- Whatever steps are taken, `Q` holds after finitely many of them. -/
inductive Comes (next : α → α → Prop) (Q : α → Prop) : α → Prop
  | here {x : α} : Q x → Comes next Q x
  | step {x : α} : (∀ y, next x y → Comes next Q y) → Comes next Q x

/-- One program after the other. -/
theorem Comes.trans {R : α → Prop} (h : Comes next Q x) (hQ : ∀ y, Q y → Comes next R y) :
    Comes next R x := by
  induction h with
  | here hx => exact hQ _ hx
  | step _ ih => exact .step ih

/-- **A program inside another one**: while it runs, the steps of the outer program are its. -/
theorem Comes.map {f : α → β} (h : Comes next Q x) (hQ : ∀ x, Q x → Comes next' Q' (f x))
    (hstep : ∀ x y', ¬ Q x → next' (f x) y' → ∃ y, next x y ∧ y' = f y) :
    Comes next' Q' (f x) := by
  induction h with
  | here hx => exact hQ _ hx
  | @step x _ ih =>
    by_cases hx : Q x
    · exact hQ x hx
    · refine .step fun y' hy' => ?_
      obtain ⟨y, hy, rfl⟩ := hstep x y' hx hy'
      exact ih y hy

end Comes

/-! ### Endless runs -/

/-- An infinite run. -/
structure System.Endless {S L : Type*} (A : System S L) where
  /-- The states. -/
  st : ℕ → S
  /-- The labels of the steps. -/
  lab : ℕ → L
  /-- Every step is one of the system. -/
  step : ∀ n, A.next (st n) (lab n) = some (st (n + 1))

theorem System.Endless.reach {S L : Type*} {A : System S L} (R : A.Endless) {k n : ℕ} (h : k ≤ n) :
    A.Reach anyStep (R.st k) (R.st n) := by
  induction n, h using Nat.le_induction with
  | base => exact .refl
  | succ n _ ih => exact .step ih trivial (R.step n)

/-- An endless run without its history. -/
def System.Endless.forget {S L E : Type*} {A : System S L} {ev : S → L → List E}
    (R : (A.withHistory ev).Endless) : A.Endless where
  st n := (R.st n).1
  lab := R.lab
  step n := (System.withHistory_next.1 (R.step n)).1

/-- What an endless run has recorded, after a history. -/
def System.Endless.history {S L E : Type*} {A : System S L} (R : A.Endless)
    (ev : S → L → List E) (hist : List E) : ℕ → List E
  | 0 => hist
  | n + 1 => R.history ev hist n ++ ev (R.st n) (R.lab n)

/-- Every endless run has a history. -/
def System.Endless.record {S L E : Type*} {A : System S L} (R : A.Endless) (ev : S → L → List E)
    (hist : List E) : (A.withHistory ev).Endless where
  st n := (R.st n, R.history ev hist n)
  lab := R.lab
  step n := System.withHistory_next.2 ⟨R.step n, rfl⟩

namespace Pool

variable {σ Θ χ ε : Type*} {step : σ → Θ → χ → Option (σ × Θ × List Θ)} {env : σ → ε → σ}

/-- The steps of a thread, in any shared state. -/
def Own (step : σ → Θ → χ → Option (σ × Θ × List Θ)) (th th' : Θ) : Prop :=
  ∃ s c s' new, step s th c = some (s', th', new)

variable (R : (system step env).Endless) {n m t : ℕ} {th : Θ} {Q W : Θ → Prop}

/-- The thread could run at this time, and is not excused. -/
def Ready (W : Θ → Prop) (n t : ℕ) : Prop :=
  ∃ th, (R.st n).threads[t]? = some th ∧ ¬ W th ∧
    ∃ c p', (system step env).next (R.st n) (.run t c) = some p'

/-- **Strong fairness**: a thread that could run again and again is run. -/
def Fair (W : Θ → Prop) : Prop :=
  ∀ t n, (∀ k, n ≤ k → ∃ m, k ≤ m ∧ Ready R W m t) → ∃ m, n ≤ m ∧ ∃ c, R.lab m = .run t c

variable {R}

/-- Who is excused by more is excused. -/
theorem Fair.excuse {V : Θ → Prop} (h : Fair R W) : Fair R fun th => W th ∨ V th := by
  intro t n hready
  refine h t n fun k hk => ?_
  obtain ⟨m, hm, th, hth, hno, hrun⟩ := hready k hk
  exact ⟨m, hm, th, hth, fun hW => hno (.inl hW), hrun⟩

/-- **An excuse that ends by itself**: where the threads excused by `V` are run, only those of `W`
need one. -/
theorem Fair.narrow {V : Θ → Prop} (h : Fair R fun th => W th ∨ V th)
    (hends : ∀ n t th, (R.st n).threads[t]? = some th → V th →
      ∃ m, n ≤ m ∧ ∃ c, R.lab m = .run t c) : Fair R W := by
  intro t n hready
  by_cases hV : ∃ m th, n ≤ m ∧ (R.st m).threads[t]? = some th ∧ V th
  · obtain ⟨m, th, hm, hth, hV⟩ := hV
    obtain ⟨k, hk, hrun⟩ := hends m t th hth hV
    exact ⟨k, hm.trans hk, hrun⟩
  · refine h t n fun k hk => ?_
    obtain ⟨m, hm, th, hth, hW, hrun⟩ := hready k hk
    exact ⟨m, hm, th, hth, not_or.2 ⟨hW, fun hth' => hV ⟨m, th, hk.trans hm, hth, hth'⟩⟩, hrun⟩

/-- A thread that is not run stays where it is. -/
theorem stays (hth : (R.st n).threads[t]? = some th) (hm : n ≤ m)
    (hno : ∀ k, n ≤ k → k < m → ∀ c, R.lab k ≠ .run t c) : (R.st m).threads[t]? = some th := by
  induction m, hm using Nat.le_induction with
  | base => exact hth
  | succ m hm ih =>
    have ih := ih fun k hk hlt => hno k hk (Nat.lt_succ_of_lt hlt)
    have hn := R.step m
    cases hl : R.lab m with
    | run j c =>
      have hj : t ≠ j := by
        rintro rfl
        exact hno m hm (Nat.lt_succ_self m) c hl
      rw [hl] at hn
      obtain ⟨_, _, _, _, -, -, heq⟩ := next_run.1 hn
      rw [heq]
      exact getElem?_step_of_ne hj ih
    | env e =>
      rw [hl] at hn
      rw [next_env.1 hn]
      exact ih

/-- The thread that is run takes a step of its own. -/
theorem own_of_run {c : χ} (hth : (R.st n).threads[t]? = some th) (hl : R.lab n = .run t c) :
    ∃ th', (R.st (n + 1)).threads[t]? = some th' ∧ Own step th th' := by
  have hn := R.step n
  rw [hl] at hn
  obtain ⟨th₀, sh, th', new, hth₀, hs, heq⟩ := next_run.1 hn
  rw [hth] at hth₀
  cases hth₀
  refine ⟨th', ?_, _, c, sh, new, hs⟩
  rw [heq]
  exact getElem?_step_self hth

/-- **A thread that is run comes to `Q`**, whatever the others do between its steps. -/
theorem comes_of_runs (hth : (R.st n).threads[t]? = some th) (hcomes : Comes (Own step) Q th)
    (hrun : ∀ k u, n ≤ k → (R.st k).threads[t]? = some u → ¬ Q u →
      ∃ m, k ≤ m ∧ ∃ c, R.lab m = .run t c) :
    ∃ m u, n ≤ m ∧ (R.st m).threads[t]? = some u ∧ Q u := by
  induction hcomes generalizing n with
  | here hQ => exact ⟨n, _, le_rfl, hth, hQ⟩
  | @step th _ ih =>
    by_cases hQ : Q th
    · exact ⟨n, th, le_rfl, hth, hQ⟩
    · classical
      have hex := hrun n th le_rfl hth hQ
      obtain ⟨hm, c, hl⟩ := Nat.find_spec hex
      have hstay := stays hth hm fun k hk hlt c hc => Nat.find_min hex hlt ⟨hk, c, hc⟩
      obtain ⟨th', hth', hown⟩ := own_of_run hstay hl
      have hle : n ≤ Nat.find hex + 1 := hm.trans (Nat.le_succ _)
      obtain ⟨m, u, hmu, hu⟩ := ih th' hown hth' fun k u hk => hrun k u (hle.trans hk)
      exact ⟨m, u, hle.trans hmu, hu⟩

/-- A thread that could run again and again, if it stayed where it is, will run. -/
theorem runs_of_fair (hfair : Fair R W) (hth : (R.st n).threads[t]? = some th)
    (hready : (∀ m, n ≤ m → (R.st m).threads[t]? = some th) →
      ∀ k, n ≤ k → ∃ m, k ≤ m ∧ Ready R W m t) :
    ∃ m, n ≤ m ∧ ∃ c, R.lab m = .run t c := by
  by_contra hno
  have hnever : ∀ k, n ≤ k → ∀ c, R.lab k ≠ .run t c := fun k hk c hc => hno ⟨k, hk, c, hc⟩
  exact hno (hfair t n (hready fun m hm => stays hth hm fun k hk _ => hnever k hk))

end Pool

end UnderFlow
