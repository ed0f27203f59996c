import UnderFlow.LTS.Run
import Mathlib.Data.List.Basic
import Mathlib.Data.List.Nodup
import Mathlib.Algebra.BigOperators.Group.List.Basic
import Mathlib.Algebra.Ring.Int.Defs

/-!
# Thread pools

A pool is a shared state and a list of threads; a thread is identified by its position.  One step
runs one thread for one atomic action, which may change the shared state and start new threads, or
lets the environment change the shared state.

* `Pool.system` : the interleaving of the threads, as a `System`.
* `Pool.next_run`, `Pool.next_env` : what one step can do.
* `Pool.Inv G P` : `G` holds of the shared state, and `P` of every thread in it.
* `Pool.InjOn f` : no two threads hold the same name.
* `Pool.sum_step`, `Pool.countP_step` : how a step changes a sum over the threads, and a count.
* `Pool.hands_step` : how a step changes what the threads have in hand.
* `Pool.inv_run` : the rule of Owicki and Gries.  The step of a thread has to keep `G` and to
  establish `P` for itself and for the threads it starts (`own`), and not to disturb `P` of the
  others (`frame`).
-/

namespace UnderFlow

/-- A shared state and the threads working on it. -/
structure Pool (σ Θ : Type*) where
  /-- What the threads share. -/
  shared : σ
  /-- The threads, in the order of their creation. -/
  threads : List Θ

/-- A step of a pool: run a thread with a choice, or let the environment act. -/
inductive PoolLabel (χ ε : Type*) where
  | run (t : ℕ) (c : χ)
  | env (e : ε)

namespace Pool

variable {σ Θ χ ε : Type*} (step : σ → Θ → χ → Option (σ × Θ × List Θ)) (env : σ → ε → σ)

/-- The interleaving of the threads of a pool. -/
def system : System (Pool σ Θ) (PoolLabel χ ε) where
  next p
    | .run t c =>
      match p.threads[t]? with
      | none => none
      | some th =>
        match step p.shared th c with
        | none => none
        | some (sh, th', new) => some ⟨sh, p.threads.set t th' ++ new⟩
    | .env e => some ⟨env p.shared e, p.threads⟩

variable {step env} {p p' : Pool σ Θ} {t : ℕ} {c : χ} {e : ε}

theorem next_run : (system step env).next p (.run t c) = some p' ↔
    ∃ th sh th' new, p.threads[t]? = some th ∧ step p.shared th c = some (sh, th', new) ∧
      p' = ⟨sh, p.threads.set t th' ++ new⟩ := by
  simp only [system]
  constructor
  · intro h
    split at h
    · cases h
    · rename_i th hth
      split at h
      · cases h
      · rename_i sh th' new hs
        cases h
        exact ⟨th, sh, th', new, hth, hs, rfl⟩
  · rintro ⟨th, sh, th', new, hth, hs, rfl⟩
    simp [hth, hs]

theorem next_env : (system step env).next p (.env e) = some p' ↔
    p' = ⟨env p.shared e, p.threads⟩ := by
  simp [system, eq_comm]

/-- The threads after a step: the others, the thread that ran, and the new ones. -/
theorem getElem?_step {th' u : Θ} {new : List Θ} {j : ℕ}
    (h : (p.threads.set t th' ++ new)[j]? = some u) :
    (j ≠ t ∧ p.threads[j]? = some u) ∨ (j = t ∧ u = th') ∨ u ∈ new := by
  rw [List.getElem?_append] at h
  split_ifs at h with hj
  · rw [List.getElem?_set] at h
    split_ifs at h with htj hlt
    · cases h
      exact .inr (.inl ⟨htj.symm, rfl⟩)
    · exact .inl ⟨Ne.symm htj, h⟩
  · exact .inr (.inr (List.mem_of_getElem? h))

/-- The same, with the places of the new threads. -/
theorem place_step {th' u : Θ} {new : List Θ} {j : ℕ}
    (h : (p.threads.set t th' ++ new)[j]? = some u) :
    (j ≠ t ∧ p.threads[j]? = some u) ∨ (j = t ∧ u = th') ∨ (p.threads.length ≤ j ∧ u ∈ new) := by
  by_cases hj : p.threads.length ≤ j
  · rw [List.getElem?_append_right (by rwa [List.length_set])] at h
    exact .inr (.inr ⟨hj, List.mem_of_getElem? h⟩)
  · rw [List.getElem?_append_left (by rw [List.length_set]; exact not_le.1 hj)] at h
    have hset : (p.threads.set t th' ++ [])[j]? = some u := by rwa [List.append_nil]
    rcases getElem?_step hset with h | h | h
    · exact .inl h
    · exact .inr (.inl h)
    · cases h

/-- The threads that did not run are still there. -/
theorem getElem?_step_of_ne {th' : Θ} {new : List Θ} {j : ℕ} {u : Θ} (hj : j ≠ t)
    (h : p.threads[j]? = some u) : (p.threads.set t th' ++ new)[j]? = some u := by
  have hlt : j < (p.threads.set t th').length := by
    rw [List.length_set]
    exact (List.getElem?_eq_some_iff.1 h).1
  rw [List.getElem?_append_left hlt, List.getElem?_set_ne (Ne.symm hj), h]

/-- The thread that ran is at its new point. -/
theorem getElem?_step_self {th th' : Θ} {new : List Θ} (h : p.threads[t]? = some th) :
    (p.threads.set t th' ++ new)[t]? = some th' := by
  have hlt : t < p.threads.length := (List.getElem?_eq_some_iff.1 h).1
  rw [List.getElem?_append_left (by simpa using hlt), List.getElem?_set_self hlt]

/-- Some thread has the property: the one at position `t`, or another one. -/
theorem exists_mem {Q : Θ → Prop} {th : Θ} (hth : p.threads[t]? = some th) :
    (∃ u ∈ p.threads, Q u) ↔ Q th ∨ ∃ j u, j ≠ t ∧ p.threads[j]? = some u ∧ Q u := by
  constructor
  · rintro ⟨u, hu, hQ⟩
    obtain ⟨j, hj⟩ := List.getElem?_of_mem hu
    by_cases hjt : j = t
    · subst hjt
      rw [hth] at hj
      cases hj
      exact .inl hQ
    · exact .inr ⟨j, u, hjt, hj, hQ⟩
  · rintro (hQ | ⟨j, u, -, hu, hQ⟩)
    · exact ⟨th, List.mem_of_getElem? hth, hQ⟩
    · exact ⟨u, List.mem_of_getElem? hu, hQ⟩

/-- Some thread has the property after a step. -/
theorem exists_mem_step {Q : Θ → Prop} {th th' : Θ} {new : List Θ}
    (hth : p.threads[t]? = some th) : (∃ u ∈ p.threads.set t th' ++ new, Q u) ↔
      Q th' ∨ (∃ u ∈ new, Q u) ∨ ∃ j u, j ≠ t ∧ p.threads[j]? = some u ∧ Q u := by
  constructor
  · rintro ⟨u, hu, hQ⟩
    obtain ⟨j, hj⟩ := List.getElem?_of_mem hu
    rcases getElem?_step hj with ⟨hjt, hj⟩ | ⟨-, rfl⟩ | hnew
    · exact .inr (.inr ⟨j, u, hjt, hj, hQ⟩)
    · exact .inl hQ
    · exact .inr (.inl ⟨u, hnew, hQ⟩)
  · rintro (hQ | ⟨u, hu, hQ⟩ | ⟨j, u, hjt, hu, hQ⟩)
    · exact ⟨th', List.mem_of_getElem? (getElem?_step_self hth), hQ⟩
    · exact ⟨u, List.mem_append_right _ hu, hQ⟩
    · exact ⟨u, List.mem_of_getElem? (getElem?_step_of_ne hjt hu), hQ⟩

/-- A property of the shared state, and a property of every thread. -/
structure Inv (G : σ → Prop) (P : σ → Θ → Prop) (p : Pool σ Θ) : Prop where
  shared : G p.shared
  thread : ∀ (t : ℕ) (th : Θ), p.threads[t]? = some th → P p.shared th

variable {G : σ → Prop} {P : σ → Θ → Prop}

/-- **The rule of Owicki and Gries** for the step of one thread. -/
theorem inv_run (hI : Inv G P p) (hn : (system step env).next p (.run t c) = some p')
    (own : ∀ th sh th' new, p.threads[t]? = some th → step p.shared th c = some (sh, th', new) →
      G sh ∧ P sh th' ∧ ∀ u ∈ new, P sh u)
    (frame : ∀ th sh th' new, p.threads[t]? = some th → step p.shared th c = some (sh, th', new) →
      ∀ j u, j ≠ t → p.threads[j]? = some u → P p.shared u → P sh u) : Inv G P p' := by
  obtain ⟨th, sh, th', new, hth, hs, rfl⟩ := next_run.1 hn
  obtain ⟨hG, hP, hnew⟩ := own th sh th' new hth hs
  refine ⟨hG, fun j u hu => ?_⟩
  rcases getElem?_step hu with ⟨hj, hu⟩ | ⟨-, rfl⟩ | hu
  · exact frame th sh th' new hth hs j u hj hu (hI.thread j u hu)
  · exact hP
  · exact hnew u hu

/-- The rule for a step of the environment. -/
theorem inv_env (hI : Inv G P p) (hn : (system step env).next p (.env e) = some p')
    (hG : G (env p.shared e)) (hP : ∀ th, P p.shared th → P (env p.shared e) th) :
    Inv G P p' := by
  obtain rfl := next_env.1 hn
  exact ⟨hG, fun t th hth => hP th (hI.thread t th hth)⟩

/-! ### Names held by one thread -/

/-- No two threads hold the same name; `f` says which name a thread holds, if any. -/
def InjOn {ν : Type*} (f : Θ → Option ν) (ths : List Θ) : Prop :=
  ∀ (i j : ℕ) (u v : Θ) (x : ν), ths[i]? = some u → ths[j]? = some v → f u = some x →
    f v = some x → i = j

variable {ν : Type*} {f : Θ → Option ν} {ths : List Θ} {th th' : Θ}

/-- Names that do not repeat in the list of all names are held by one thread each. -/
theorem InjOn.of_nodup (h : (ths.filterMap f).Nodup) : InjOn f ths := by
  have hlt : ∀ (i j : ℕ) (u v : Θ) (x : ν), i < j → ths[i]? = some u → ths[j]? = some v →
      f u = some x → f v ≠ some x := by
    intro i j u v x hij hu hv hfu hfv
    obtain ⟨hi, rfl⟩ := List.getElem?_eq_some_iff.1 hu
    obtain ⟨hj, rfl⟩ := List.getElem?_eq_some_iff.1 hv
    exact List.pairwise_iff_getElem.1 (List.pairwise_filterMap.1 h) i j hi hj hij x hfu x hfv rfl
  intro i j u v x hu hv hfu hfv
  rcases Nat.lt_trichotomy i j with hij | hij | hij
  · exact absurd hfv (hlt i j u v x hij hu hv hfu)
  · exact hij
  · exact absurd hfu (hlt j i v u x hij hv hu hfv)

/-- A thread may keep its name, drop it, or take one that nobody holds. -/
theorem InjOn.set (h : InjOn f ths) (hth : ths[t]? = some th)
    (hx : ∀ x, f th' = some x → f th = some x ∨ ∀ v ∈ ths, f v ≠ some x) :
    InjOn f (ths.set t th') := by
  have hone : ∀ (j : ℕ) (v : Θ) (x : ν), j ≠ t → ths[j]? = some v → f v = some x →
      f th' ≠ some x := by
    intro j v x hj hv hfv hf
    rcases hx x hf with hold | hno
    · exact hj (h j t v th x hv hth hfv hold)
    · exact hno v (List.mem_of_getElem? hv) hfv
  intro i j u v x hu hv hfu hfv
  rw [List.getElem?_set] at hu hv
  split_ifs at hu hv with hi hit hj hjt hj
  · exact hi.symm.trans hj
  · cases hu
    exact absurd hfu (hone j v x (Ne.symm hj) hv hfv)
  · cases hv
    exact absurd hfv (hone i u x (Ne.symm hi) hu hfu)
  · exact h i j u v x hu hv hfu hfv

/-- New threads may come without a name. -/
theorem InjOn.append (h : InjOn f ths) {new : List Θ} (hnew : ∀ u ∈ new, f u = none) :
    InjOn f (ths ++ new) := by
  have hold : ∀ (i : ℕ) (u : Θ) (x : ν), (ths ++ new)[i]? = some u → f u = some x →
      ths[i]? = some u := by
    intro i u x hu hfu
    rw [List.getElem?_append] at hu
    split_ifs at hu
    · exact hu
    · rw [hnew u (List.mem_of_getElem? hu)] at hfu
      cases hfu
  intro i j u v x hu hv hfu hfv
  exact h i j u v x (hold i u x hu hfu) (hold j v x hv hfv) hfu hfv

/-- A new thread may hold a name that nobody holds. -/
theorem InjOn.concat (h : InjOn f ths) (hx : ∀ x, f th' = some x → ∀ v ∈ ths, f v ≠ some x) :
    InjOn f (ths ++ [th']) := by
  intro i j u v x hu hv hfu hfv
  rw [List.getElem?_append] at hu hv
  have hlast : ∀ k w, [th'][k - ths.length]? = some w → ¬ k < ths.length →
      w = th' ∧ k = ths.length := by
    intro k w hw hk
    obtain ⟨hlt, rfl⟩ := List.getElem?_eq_some_iff.1 hw
    rw [List.length_singleton] at hlt
    exact ⟨by simp, by omega⟩
  split_ifs at hu hv with hi hj hj
  · exact h i j u v x hu hv hfu hfv
  · obtain ⟨rfl, -⟩ := hlast j v hv hj
    exact absurd hfu (hx x hfv u (List.mem_of_getElem? hu))
  · obtain ⟨rfl, -⟩ := hlast i u hu hi
    exact absurd hfv (hx x hfu v (List.mem_of_getElem? hv))
  · rw [(hlast i u hu hi).2, (hlast j v hv hj).2]

/-! ### Sums over the threads -/

theorem sum_set {w : Θ → ℤ} (hth : ths[t]? = some th) (x : ℤ) :
    ((ths.map w).set t x).sum = (ths.map w).sum - w th + x := by
  obtain ⟨hlt, rfl⟩ := List.getElem?_eq_some_iff.1 hth
  have hlt' : t < (ths.map w).length := by rwa [List.length_map]
  rw [List.sum_set', dif_pos hlt', List.getElem_map]
  omega

/-- A step changes a sum by what it changes for the thread that ran, if new threads count
nothing. -/
theorem sum_step {w : Θ → ℤ} {new : List Θ} (hth : ths[t]? = some th)
    (hnew : ∀ u ∈ new, w u = 0) :
    ((ths.set t th' ++ new).map w).sum = (ths.map w).sum - w th + w th' := by
  have hzero : (new.map w).sum = 0 := by
    refine List.sum_eq_zero fun x hx => ?_
    obtain ⟨u, hu, rfl⟩ := List.mem_map.1 hx
    exact hnew u hu
  rw [List.map_append, List.sum_append, hzero, List.map_set, sum_set hth, add_zero]

/-- How a step changes the number of threads with a property. -/
theorem countP_step {q : Θ → Bool} {new : List Θ} (hth : ths[t]? = some th) :
    (ths.set t th' ++ new).countP q + (q th).toNat =
      ths.countP q + (q th').toNat + new.countP q := by
  obtain ⟨hlt, rfl⟩ := List.getElem?_eq_some_iff.1 hth
  have hpos : q ths[t] = true → 0 < ths.countP q := fun hq =>
    List.countP_pos_iff.2 ⟨_, List.getElem_mem hlt, hq⟩
  rw [List.countP_append, List.countP_set hlt]
  rcases hq : q ths[t] with _ | _
  · cases q th' <;> simp
  · have h₁ := hpos hq
    cases q th' <;> simp <;> omega

/-- A sum to which no other thread contributes. -/
theorem sum_eq_of_alone {w : Θ → ℤ} (hth : ths[t]? = some th)
    (h : ∀ (j : ℕ) (u : Θ), j ≠ t → ths[j]? = some u → w u = 0) : (ths.map w).sum = w th := by
  have hzero : ((ths.map w).set t 0).sum = 0 := by
    refine List.sum_eq_zero fun x hx => ?_
    obtain ⟨j, hj⟩ := List.getElem?_of_mem hx
    rw [List.getElem?_set] at hj
    split_ifs at hj with htj hlt
    · exact (Option.some.inj hj).symm
    · rw [List.getElem?_map] at hj
      obtain ⟨u, hu, rfl⟩ := Option.map_eq_some_iff.1 hj
      exact h j u (Ne.symm htj) hu
  rw [sum_set hth] at hzero
  omega

/-! ### What the threads have in hand -/

/-- What all threads have in hand is what one of them has, and what the others have. -/
theorem hands_perm {κ : Type*} (g : Θ → List κ) (hth : ths[t]? = some th) :
    (ths.flatMap g).Perm (g th ++ (ths.eraseIdx t).flatMap g) := by
  obtain ⟨hlt, rfl⟩ := List.getElem?_eq_some_iff.1 hth
  have hsplit : ths = ths.take t ++ ths[t] :: ths.drop (t + 1) := by simp
  conv_lhs => rw [hsplit]
  rw [List.eraseIdx_eq_take_drop_succ, List.flatMap_append, List.flatMap_cons,
    List.flatMap_append]
  exact List.perm_append_comm_assoc ..

/-- After a step, if new threads have nothing in hand. -/
theorem hands_step {κ : Type*} (g : Θ → List κ) {new : List Θ} (hth : ths[t]? = some th)
    (hnew : ∀ u ∈ new, g u = []) :
    ((ths.set t th' ++ new).flatMap g).Perm (g th' ++ (ths.eraseIdx t).flatMap g) := by
  have hlt : t < ths.length := (List.getElem?_eq_some_iff.1 hth).1
  have hself : (ths.set t th')[t]? = some th' := List.getElem?_set_self hlt
  have hnone : new.flatMap g = [] := List.flatMap_eq_nil_iff.2 hnew
  rw [List.flatMap_append, hnone, List.append_nil]
  refine (hands_perm g hself).trans ?_
  rw [List.eraseIdx_set_eq]

/-- What is in hand once is in the hand of one thread. -/
theorem hands_unique {κ : Type*} {g : Θ → List κ} (h : (ths.flatMap g).Nodup) {i j : ℕ} {u v : Θ}
    {x : κ} (hu : ths[i]? = some u) (hv : ths[j]? = some v) (hxu : x ∈ g u) (hxv : x ∈ g v) :
    i = j := by
  have hlt : ∀ (i j : ℕ) (u v : Θ), i < j → ths[i]? = some u → ths[j]? = some v → x ∈ g u →
      x ∉ g v := by
    intro i j u v hij hu hv hxu hxv
    obtain ⟨hi, rfl⟩ := List.getElem?_eq_some_iff.1 hu
    obtain ⟨hj, rfl⟩ := List.getElem?_eq_some_iff.1 hv
    exact List.pairwise_iff_getElem.1 (List.nodup_flatMap.1 h).2 i j hi hj hij hxu hxv
  rcases Nat.lt_trichotomy i j with hij | hij | hij
  · exact absurd hxv (hlt i j u v hij hu hv hxu)
  · exact hij
  · exact absurd hxu (hlt j i v u hij hv hu hxv)

end Pool

end UnderFlow
