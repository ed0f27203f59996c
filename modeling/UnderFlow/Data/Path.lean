import Mathlib.Data.List.Basic

/-!
# Lexical path resolution

A path is a string over an alphabet with a separator `sep` and a character `dot`.  Resolution splits
it at the separators and walks from a directory, component by component: empty components and `.`
stay, `..` goes to the parent (the root is its own parent), any other component is entered.  A
directory is the list of names on the way to it from the root.

* `resolve_append_sep` : resolving `p/q` is resolving `p` and walking the components of `q` from
  there.
* `walk_splitOn_name` : a plain name is entered.
* `walk_eq_climb` : a walk climbs some levels and then enters some names.
-/

namespace UnderFlow

namespace Path

variable {α : Type*} [DecidableEq α] (sep dot : α)

/-- One component of a walk. -/
def push (d : List (List α)) (c : List α) : List (List α) :=
  if c = [] ∨ c = [dot] then d else if c = [dot, dot] then d.dropLast else d ++ [c]

/-- Walk a list of components from the directory `d`. -/
def walk (d : List (List α)) (cs : List (List α)) : List (List α) := cs.foldl (push dot) d

/-- The directory entry a path names, for a process working in `cwd`. -/
def resolve (cwd : List (List α)) (path : List α) : List (List α) :=
  walk dot (if path.head? = some sep then [] else cwd) (path.splitOn sep)

/-- A string that names an entry of a directory and nothing else. -/
def IsName (c : List α) : Prop := c ≠ [] ∧ c ≠ [dot] ∧ c ≠ [dot, dot] ∧ sep ∉ c

instance (c : List α) : Decidable (IsName sep dot c) :=
  inferInstanceAs (Decidable (_ ∧ _ ∧ _ ∧ _))

variable {sep dot} {d cwd : List (List α)} {c p q : List α}

theorem push_name (h : IsName sep dot c) : push dot d c = d ++ [c] := by
  simp [push, h.1, h.2.1, h.2.2.1]

@[simp] theorem push_dot : push dot d [dot] = d := by simp [push]

@[simp] theorem walk_nil : walk dot d [] = d := rfl

@[simp] theorem walk_cons (cs : List (List α)) :
    walk dot d (c :: cs) = walk dot (push dot d c) cs := rfl

theorem walk_append (cs cs' : List (List α)) :
    walk dot d (cs ++ cs') = walk dot (walk dot d cs) cs' := List.foldl_append

theorem walk_splitOn_name (h : IsName sep dot c) : walk dot d (c.splitOn sep) = d ++ [c] := by
  rw [List.splitOn_eq_singleton h.2.2.2]
  exact push_name h

theorem resolve_append_sep (hp : p ≠ []) :
    resolve sep dot cwd (p ++ sep :: q) = walk dot (resolve sep dot cwd p) (q.splitOn sep) := by
  have hhead : (p ++ sep :: q).head? = p.head? := by
    cases p with
    | nil => exact absurd rfl hp
    | cons a p => rfl
  rw [resolve, hhead, List.splitOn_append_cons_self, walk_append, resolve]

/-- Entering a plain name leaves the name as the last step of the directory. -/
theorem resolve_append_name (hp : p ≠ []) (h : IsName sep dot c) :
    resolve sep dot cwd (p ++ sep :: c) = resolve sep dot cwd p ++ [c] := by
  rw [resolve_append_sep hp, walk_splitOn_name h]

/-! ### Where a walk leads -/

variable (dot) in
/-- A component of a walk, relative to where the walk began: the levels climbed above that
directory, and the names entered below. -/
def climbPush (r : ℕ × List (List α)) (c : List α) : ℕ × List (List α) :=
  if c = [] ∨ c = [dot] then r
  else if c = [dot, dot] then (if r.2 = [] then (r.1 + 1, []) else (r.1, r.2.dropLast))
  else (r.1, r.2 ++ [c])

variable (dot) in
/-- The levels a walk climbs, and the names it enters after that. -/
def climb (cs : List (List α)) : ℕ × List (List α) := cs.foldl (climbPush dot) (0, [])

/-- The directory `r.1` levels above `d`, and from there the names `r.2`. -/
def land (d : List (List α)) (r : ℕ × List (List α)) : List (List α) :=
  d.take (d.length - r.1) ++ r.2

omit [DecidableEq α] in
@[simp] theorem land_zero (names : List (List α)) : land d (0, names) = d ++ names := by
  rw [land, Nat.sub_zero, List.take_length]

theorem push_land (r : ℕ × List (List α)) :
    push dot (land d r) c = land d (climbPush dot r c) := by
  obtain ⟨up, names⟩ := r
  unfold push climbPush
  split_ifs with hstay hup hnil
  · rfl
  · subst hnil
    simp only [land, List.append_nil, List.dropLast_eq_take, List.take_take, List.length_take]
    congr 1
    omega
  · exact List.dropLast_append_of_ne_nil hnil
  · exact List.append_assoc _ _ _

/-- **A walk climbs some levels and then enters some names.** -/
theorem walk_eq_climb (cs : List (List α)) : walk dot d cs = land d (climb dot cs) := by
  have hfold : ∀ r : ℕ × List (List α),
      walk dot (land d r) cs = land d (cs.foldl (climbPush dot) r) := by
    induction cs with
    | nil => exact fun r => rfl
    | cons c cs ih =>
      intro r
      rw [walk_cons, push_land, ih, List.foldl_cons]
  rw [climb, ← hfold, land_zero, List.append_nil]

/-- A walk that never climbs enters its names in turn. -/
theorem climb_of_not_mem {cs : List (List α)} (h : [dot, dot] ∉ cs) :
    climb dot cs = (0, cs.filter fun c => c ≠ [] ∧ c ≠ [dot]) := by
  have hfold : ∀ names : List (List α), cs.foldl (climbPush dot) (0, names) =
      (0, names ++ cs.filter fun c => c ≠ [] ∧ c ≠ [dot]) := by
    induction cs with
    | nil => simp
    | cons c cs ih =>
      intro names
      rw [List.mem_cons, not_or] at h
      rw [List.foldl_cons]
      by_cases hc : c = [] ∨ c = [dot]
      · rw [climbPush, if_pos hc, ih h.2, List.filter_cons_of_neg
          (by simpa [or_iff_not_imp_left] using hc)]
      · rw [climbPush, if_neg hc, if_neg (Ne.symm h.1), ih h.2,
          List.filter_cons_of_pos (by simpa [not_or] using hc), List.append_assoc]
        rfl
  exact hfold []

end Path

end UnderFlow
