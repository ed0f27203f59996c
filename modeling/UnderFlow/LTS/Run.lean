import Mathlib.Logic.Relation

/-!
# Systems driven by labels

A `System` moves by labels: `next s l` is the state after label `l`, or `none` when the label is
not enabled.  All nondeterminism (which thread runs, what the outside world answers) is in the
label, so a run is a list of labels and can be executed.

* `System.Reach C s₀ s` : `s` is reached from `s₀` by steps that all satisfy the *guard* `C`.  The
  guard looks at the state before the step and at the label.
* `System.run C` : execute a list of labels under a guard that can be decided.
* `System.Reach.invariant` : what every guarded step preserves holds in every state reached.
* `System.Reach.simulate` : a system whose steps another one matches, or sleeps through.
* `System.withHistory` : the same system with a record of events, which no step reads.
* `Along Q` : every event of a record satisfies `Q` of what was recorded before it.
-/

namespace UnderFlow

/-- A system whose steps are chosen by labels. -/
structure System (S L : Type*) where
  /-- The state after the label, if the label is enabled. -/
  next : S → L → Option S

namespace System

variable {S L E : Type*} (A : System S L)

/-- The guard that admits every step. -/
def anyStep : S → L → Prop := fun _ _ => True

instance (s : S) (l : L) : Decidable (anyStep s l) := .isTrue trivial

/-- Execute a list of labels, as long as the guard `C` admits them. -/
def run (C : S → L → Prop) [∀ s l, Decidable (C s l)] (s : S) : List L → Option S
  | [] => some s
  | l :: ls => if C s l then (A.next s l).bind fun s' => run C s' ls else none

/-- States reached from `s₀` by steps satisfying the guard `C`. -/
inductive Reach (C : S → L → Prop) (s₀ : S) : S → Prop
  | refl : Reach C s₀ s₀
  | step {s s' : S} {l : L} : Reach C s₀ s → C s l → A.next s l = some s' → Reach C s₀ s'

variable {A} {C D : S → L → Prop} {s₀ s s' : S}

/-- **Invariants of guarded runs.**  The step may use that its first state is reachable. -/
theorem Reach.invariant {I : S → Prop} (h : A.Reach C s₀ s) (h₀ : I s₀)
    (hstep : ∀ s l s', A.Reach C s₀ s → I s → C s l → A.next s l = some s' → I s') : I s := by
  induction h with
  | refl => exact h₀
  | step hr hC hn ih => exact hstep _ _ _ hr ih hC hn

theorem Reach.trans (h₁ : A.Reach C s₀ s) (h₂ : A.Reach C s s') : A.Reach C s₀ s' := by
  induction h₂ with
  | refl => exact h₁
  | step _ hC hn ih => exact .step ih hC hn

/-- A stronger guard reaches fewer states. -/
theorem Reach.mono (hCD : ∀ s l, C s l → D s l) (h : A.Reach C s₀ s) : A.Reach D s₀ s := by
  induction h with
  | refl => exact .refl
  | step _ hC hn ih => exact .step ih (hCD _ _ hC) hn

theorem Reach.any (h : A.Reach C s₀ s) : A.Reach anyStep s₀ s := h.mono fun _ _ _ => trivial

theorem Reach.single {l : L} (hC : C s l) (hn : A.next s l = some s') : A.Reach C s s' :=
  .step .refl hC hn

/-- What can be executed is a guarded run. -/
theorem reach_of_run [∀ s l, Decidable (C s l)] {ls : List L} (h : A.run C s ls = some s') :
    A.Reach C s s' := by
  induction ls generalizing s with
  | nil =>
    cases h
    exact .refl
  | cons l ls ih =>
    simp only [run] at h
    split at h
    · rename_i hC
      obtain ⟨s₁, hs₁, h⟩ := Option.bind_eq_some_iff.1 h
      exact (Reach.single hC hs₁).trans (ih h)
    · cases h

/-- A run that can be executed, and what is computed of the state it ends in. -/
theorem exists_reach_of_any (C : S → L → Prop) [∀ s l, Decidable (C s l)] (s : S)
    (ls : List L) (f : S → Bool) (h : (A.run C s ls).any f = true) :
    ∃ s', A.Reach C s s' ∧ f s' = true := by
  obtain ⟨s', hs', hf⟩ := (Option.any_eq_true _ _).1 h
  exact ⟨s', reach_of_run hs', hf⟩

/-- **Forward simulation.**  If every step is matched by a step of another system, or by none, then
the states reached are related to states that the other system reaches. -/
theorem Reach.simulate {T M : Type*} {B : System T M} {R : S → T → Prop} {t₀ : T}
    (h : A.Reach C s₀ s) (h₀ : R s₀ t₀)
    (hstep : ∀ s t l s', R s t → C s l → A.next s l = some s' →
      ∃ t', R s' t' ∧ (t' = t ∨ ∃ m, B.next t m = some t')) :
    ∃ t, R s t ∧ B.Reach anyStep t₀ t := by
  induction h with
  | refl => exact ⟨t₀, h₀, .refl⟩
  | step _ hC hn ih =>
    obtain ⟨t, hR, ht⟩ := ih
    obtain ⟨t', hR', rfl | ⟨m, hm⟩⟩ := hstep _ t _ _ hR hC hn
    · exact ⟨t', hR', ht⟩
    · exact ⟨t', hR', .step ht trivial hm⟩

/-! ### History variables -/

variable (A) in
/-- The system with a history: each step adds its events to a record that no step reads. -/
def withHistory (ev : S → L → List E) : System (S × List E) L where
  next p l := (A.next p.1 l).map fun s' => (s', p.2 ++ ev p.1 l)

theorem withHistory_next {ev : S → L → List E} {p p' : S × List E} {l : L} :
    (A.withHistory ev).next p l = some p' ↔
      A.next p.1 l = some p'.1 ∧ p'.2 = p.2 ++ ev p.1 l := by
  obtain ⟨s', h'⟩ := p'
  simp only [withHistory, Option.map_eq_some_iff, Prod.mk.injEq]
  constructor
  · rintro ⟨t, ht, rfl, rfl⟩
    exact ⟨ht, rfl⟩
  · rintro ⟨ht, rfl⟩
    exact ⟨_, ht, rfl, rfl⟩

/-- Forgetting the history gives a run of the system. -/
theorem Reach.of_withHistory {ev : S → L → List E} {p₀ p : S × List E}
    (h : (A.withHistory ev).Reach (fun p l => C p.1 l) p₀ p) : A.Reach C p₀.1 p.1 := by
  induction h with
  | refl => exact .refl
  | step _ hC hn ih => exact .step ih hC (withHistory_next.1 hn).1

end System

/-! ### Properties of a history -/

variable {E : Type*} {Q : List E → E → Prop} {hist ev : List E}

/-- Every event of the history satisfies `Q` of the events before it. -/
def Along (Q : List E → E → Prop) (hist : List E) : Prop :=
  ∀ before e after, hist = before ++ e :: after → Q before e

theorem along_nil : Along Q [] := fun _ _ _ h => absurd h (by simp)

/-- A history grows by events that satisfy `Q` of all that is before them. -/
theorem Along.append (h : Along Q hist)
    (hev : ∀ pre e post, ev = pre ++ e :: post → Q (hist ++ pre) e) : Along Q (hist ++ ev) := by
  intro before e after heq
  rcases List.append_eq_append_iff.1 heq with ⟨mid, rfl, hmid⟩ | ⟨mid, rfl, hmid⟩
  · exact hev mid e after hmid
  · cases mid with
    | nil => simpa using hev [] e after (by simpa using hmid.symm)
    | cons f mid =>
      obtain ⟨rfl, -⟩ := List.cons.inj hmid
      exact h before e mid rfl

/-- One more event. -/
theorem along_concat {e : E} : Along Q (hist ++ [e]) ↔ Along Q hist ∧ Q hist e := by
  constructor
  · refine fun h => ⟨fun before e' after heq => ?_, h hist e [] rfl⟩
    exact h before e' (after ++ [e]) (by simp [heq])
  · rintro ⟨h, he⟩
    refine h.append fun pre e' post heq => ?_
    cases pre with
    | nil =>
      obtain ⟨rfl, -⟩ := List.cons.inj heq
      rwa [List.append_nil]
    | cons f pre => simp at heq

end UnderFlow
