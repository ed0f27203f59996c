import Mathlib.Data.List.Basic

/-!
# First-fit scans of a slot table

A table of slots is scanned from its first slot; the scan stops at the first slot satisfying a
test and changes that slot only.  Taking an entry, filling a free slot and touching a flag are all
scans of this kind, with a different test and a different change.

* `updateFirst p f l` : the element found and the table after the change.
* `updateFirst_eq_some` : what a successful scan found, as a decomposition of the table.
* `countP_updateFirst` : how a scan changes the number of slots satisfying a predicate.
-/

namespace UnderFlow

variable {α : Type*}

/-- Replace the first element satisfying `p` by its image under `f`; the element found is returned
with the new list. -/
def updateFirst (p : α → Bool) (f : α → α) : List α → Option (α × List α)
  | [] => none
  | a :: l => if p a then some (a, f a :: l)
    else (updateFirst p f l).map fun r => (r.1, a :: r.2)

variable {p q : α → Bool} {f : α → α} {l l' : List α} {a b : α}

theorem updateFirst_eq_none : updateFirst p f l = none ↔ ∀ a ∈ l, p a = false := by
  induction l with
  | nil => simp [updateFirst]
  | cons a l ih =>
    by_cases hp : p a
    · simp [updateFirst, hp]
    · simp [updateFirst, hp, ih]

theorem updateFirst_eq_some : updateFirst p f l = some (a, l') ↔
    ∃ l₁ l₂, l = l₁ ++ a :: l₂ ∧ l' = l₁ ++ f a :: l₂ ∧ p a = true ∧ ∀ b ∈ l₁, p b = false := by
  induction l generalizing l' with
  | nil => simp [updateFirst]
  | cons c l ih =>
    by_cases hp : p c
    · simp only [updateFirst, hp, ↓reduceIte, Option.some.injEq, Prod.mk.injEq]
      constructor
      · rintro ⟨rfl, rfl⟩
        exact ⟨[], l, rfl, rfl, hp, by simp⟩
      · rintro ⟨l₁, l₂, h, rfl, -, hl₁⟩
        cases l₁ with
        | nil => cases h; exact ⟨rfl, rfl⟩
        | cons d l₁ =>
          cases h
          exact absurd hp (by simp [hl₁ c List.mem_cons_self])
    · simp only [updateFirst, hp, Bool.false_eq_true, ↓reduceIte, Option.map_eq_some_iff,
        Prod.mk.injEq, Prod.exists]
      constructor
      · rintro ⟨b, m, hm, rfl, rfl⟩
        obtain ⟨l₁, l₂, rfl, rfl, hb, hl₁⟩ := ih.1 hm
        exact ⟨c :: l₁, l₂, rfl, rfl, hb, by simpa [hp] using hl₁⟩
      · rintro ⟨l₁, l₂, h, rfl, ha, hl₁⟩
        cases l₁ with
        | nil => cases h; exact absurd ha hp
        | cons d l₁ =>
          cases h
          exact ⟨a, _, ih.2 ⟨l₁, l₂, rfl, rfl, ha, fun b hb => hl₁ b (List.mem_cons_of_mem _ hb)⟩,
            rfl, rfl⟩

/-- A table that is full up to some free slots is filled at the first of them. -/
theorem updateFirst_replicate {k : ℕ} {as : List α} (has : ∀ a ∈ as, p a = false)
    (hb : p b = true) :
    updateFirst p f (as ++ List.replicate (k + 1) b) =
      some (b, as ++ f b :: List.replicate k b) :=
  updateFirst_eq_some.2 ⟨as, List.replicate k b, rfl, rfl, hb, has⟩

/-- What a successful scan found, by its position. -/
theorem updateFirst_eq_set (h : updateFirst p f l = some (a, l')) :
    ∃ i, l[i]? = some a ∧ l' = l.set i (f a) ∧ p a = true ∧
      ∀ (j : ℕ) (b : α), j < i → l[j]? = some b → p b = false := by
  obtain ⟨l₁, l₂, rfl, rfl, hp, hl₁⟩ := updateFirst_eq_some.1 h
  refine ⟨l₁.length, by simp, by simp, hp, fun j b hj hb => hl₁ b ?_⟩
  rw [List.getElem?_append_left hj] at hb
  exact List.mem_of_getElem? hb

/-- A scan stops at the first position that satisfies the test. -/
theorem findIdx?_of_updateFirst (h : updateFirst p f l = some (a, l')) :
    ∃ i, l.findIdx? p = some i ∧ l[i]? = some a ∧ p a = true ∧ l' = l.set i (f a) := by
  obtain ⟨i, hi, rfl, hp, hfirst⟩ := updateFirst_eq_set h
  obtain ⟨hlt, rfl⟩ := List.getElem?_eq_some_iff.1 hi
  refine ⟨i, List.findIdx?_eq_some_iff_getElem.2 ⟨hlt, hp, fun j hj => ?_⟩, hi, hp, rfl⟩
  rw [hfirst j _ hj (List.getElem?_eq_getElem (Nat.lt_trans hj hlt))]
  exact Bool.false_ne_true

theorem findIdx?_of_updateFirst_eq_none (h : updateFirst p f l = none) : l.findIdx? p = none :=
  List.findIdx?_eq_none_iff.2 (updateFirst_eq_none.1 h)

/-- A scan finds the only position that satisfies the test. -/
theorem updateFirst_of_unique {i : ℕ} (hi : l[i]? = some a) (ha : p a = true)
    (huniq : ∀ (j : ℕ) (b : α), l[j]? = some b → p b = true → j = i) :
    updateFirst p f l = some (a, l.set i (f a)) := by
  rcases h : updateFirst p f l with _ | ⟨b, l'⟩
  · rw [updateFirst_eq_none.1 h a (List.mem_of_getElem? hi)] at ha
    cases ha
  · obtain ⟨j, hj, rfl, hb, -⟩ := updateFirst_eq_set h
    obtain rfl := huniq j b hj hb
    rw [hi] at hj
    cases hj
    rfl

/-- A scan of images, where the images tell what is found and what it becomes. -/
theorem updateFirst_map {β : Type*} {g : α → β} {q : β → Bool} {f' : β → β}
    (hp : ∀ a, q (g a) = p a) (hf : ∀ a, f' (g a) = g (f a)) :
    updateFirst q f' (l.map g) = (updateFirst p f l).map fun r => (g r.1, r.2.map g) := by
  induction l with
  | nil => rfl
  | cons a l ih =>
    rw [List.map_cons, updateFirst, updateFirst, hp, hf, ih]
    split_ifs
    · rfl
    · rw [Option.map_map, Option.map_map]
      rfl

/-- The scan finds what `List.find?` finds. -/
theorem updateFirst_fst : (updateFirst p f l).map Prod.fst = l.find? p := by
  induction l with
  | nil => rfl
  | cons c l ih =>
    by_cases hp : p c
    · simp [updateFirst, hp]
    · simp [updateFirst, hp, ← ih, Option.map_map, Function.comp_def]

theorem mem_of_updateFirst (h : updateFirst p f l = some (a, l')) : a ∈ l ∧ p a = true := by
  obtain ⟨l₁, l₂, rfl, -, hp, -⟩ := updateFirst_eq_some.1 h
  exact ⟨by simp, hp⟩

/-- Every slot of the new table is the changed slot or a slot of the old one. -/
theorem mem_updateFirst (h : updateFirst p f l = some (a, l')) (hb : b ∈ l') :
    b = f a ∨ b ∈ l := by
  obtain ⟨l₁, l₂, rfl, rfl, -, -⟩ := updateFirst_eq_some.1 h
  simp only [List.mem_append, List.mem_cons] at hb ⊢
  tauto

/-- A scan trades the slot it found for the changed one. -/
theorem countP_updateFirst (h : updateFirst p f l = some (a, l')) :
    l'.countP q + (if q a then 1 else 0) = l.countP q + (if q (f a) then 1 else 0) := by
  obtain ⟨l₁, l₂, rfl, rfl, -, -⟩ := updateFirst_eq_some.1 h
  simp only [List.countP_append, List.countP_cons]
  omega

end UnderFlow
