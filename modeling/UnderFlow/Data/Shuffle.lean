import Mathlib.Data.List.Perm.Subperm
import Mathlib.Data.Nat.Notation
import Mathlib.Algebra.Order.Group.Nat

/-!
# Partial Fisher–Yates shuffles

The first `k` rounds of a shuffle of an array: round `i` exchanges the entries at `i` and at
`i + r i % (n - i)`, for a stream `r` of random numbers.  Indices and the divisor are checked.

* `shuffle_perm` : within the array no check fails, and the entries are permuted.
* `exists_shuffle` : each selection of `k` entries, in each order, comes to the front for
  some stream.
-/

namespace UnderFlow

variable {α : Type*} {l l' ts : List α} {a b : α} {i j k n : ℕ} {r r' : ℕ → ℕ}

/-- Exchange two entries; `none` if one lies outside. -/
def exchange (l : List α) (i j : ℕ) : Option (List α) :=
  match l[i]?, l[j]? with
  | some a, some b => some ((l.set i b).set j a)
  | _, _ => none

/-- A remainder; `none` for the divisor 0. -/
def modOf (a b : ℕ) : Option ℕ := if b = 0 then none else some (a % b)

/-- The first `k` rounds of the shuffle. -/
def shuffle (r : ℕ → ℕ) (l : List α) : ℕ → Option (List α)
  | 0 => some l
  | k + 1 => (shuffle r l k).bind fun l' =>
    (modOf (r k) (l'.length - k)).bind fun d => exchange l' k (k + d)

/-! ### One round -/

theorem exchange_of_lt (hi : i < l.length) (hj : j < l.length) :
    exchange l i j = some ((l.set i l[j]).set j l[i]) := by
  rw [exchange, List.getElem?_eq_getElem hi, List.getElem?_eq_getElem hj]

theorem exchange_perm (h : exchange l i j = some l') : l'.Perm l := by
  unfold exchange at h
  split at h
  · rename_i a b ha hb
    obtain ⟨hi, rfl⟩ := List.getElem?_eq_some_iff.1 ha
    obtain ⟨hj, rfl⟩ := List.getElem?_eq_some_iff.1 hb
    cases h
    exact List.set_set_perm hi hj
  · cases h

/-- The entries in front of both stay. -/
theorem take_exchange (h : exchange l i j = some l') (hi : k ≤ i) (hj : k ≤ j) :
    l'.take k = l.take k := by
  unfold exchange at h
  split at h
  · cases h
    rw [List.take_set_of_le hj, List.take_set_of_le hi]
  · cases h

theorem getElem?_exchange (h : exchange l i j = some l') : l'[i]? = l[j]? := by
  unfold exchange at h
  split at h
  · rename_i a b ha hb
    have hi := (List.getElem?_eq_some_iff.1 ha).1
    cases h
    by_cases hij : j = i
    · rw [hij, List.getElem?_set_self (by simpa using hi), ha]
    · rw [List.getElem?_set_ne hij, List.getElem?_set_self hi, hb]
  · cases h

theorem modOf_of_pos (h : 0 < n) (a : ℕ) : modOf a n = some (a % n) :=
  if_neg (Nat.pos_iff_ne_zero.1 h)

theorem shuffle_succ_of_lt (h : shuffle r l k = some l') (hlen : l'.length = l.length)
    (hk : k < l.length) :
    shuffle r l (k + 1) = exchange l' k (k + r k % (l.length - k)) := by
  rw [shuffle, h, Option.bind_some, hlen, modOf_of_pos (Nat.sub_pos_of_lt hk), Option.bind_some]

/-! ### All rounds -/

/-- **No index and no divisor is out of range**, and the entries are permuted. -/
theorem shuffle_perm (hk : k ≤ l.length) : ∃ l', shuffle r l k = some l' ∧ l'.Perm l := by
  induction k with
  | zero => exact ⟨l, rfl, List.Perm.refl l⟩
  | succ k ih =>
    obtain ⟨l', hl', hperm⟩ := ih (Nat.le_of_succ_le hk)
    have hlen : l'.length = l.length := hperm.length_eq
    have hd : r k % (l.length - k) < l.length - k := Nat.mod_lt _ (Nat.sub_pos_of_lt hk)
    have hex :=
      exchange_of_lt (l := l') (i := k) (j := k + r k % (l.length - k)) (by omega) (by omega)
    refine ⟨_, (shuffle_succ_of_lt hl' hlen hk).trans hex, ?_⟩
    exact (exchange_perm hex).trans hperm

/-- The first rounds read the first numbers only. -/
theorem shuffle_congr (h : ∀ i < k, r i = r' i) : shuffle r l k = shuffle r' l k := by
  induction k with
  | zero => rfl
  | succ k ih =>
    rw [shuffle, shuffle, ih fun i hi => h i (Nat.lt_succ_of_lt hi), h k (Nat.lt_succ_self k)]

/-- An entry that is wanted and not yet at the front lies behind it. -/
theorem exists_index (hperm : l'.Perm l) (hfront : l'.take k = ts.take k) (hsub : ts.Subperm l)
    (hk : k < ts.length) : ∃ d, k + d < l'.length ∧ l'[k + d]? = some ts[k] := by
  have hback : (ts.drop k).Subperm (l'.drop k) := by
    rw [← List.subperm_append_left (ts.take k), List.take_append_drop, ← hfront,
      List.take_append_drop]
    exact hsub.trans hperm.symm.subperm
  have hwanted : ts[k] ∈ ts.drop k := by
    rw [List.drop_eq_getElem_cons hk]
    exact List.mem_cons_self
  have hmem : ts[k] ∈ l'.drop k := hback.subset hwanted
  obtain ⟨d, hd⟩ := List.getElem?_of_mem hmem
  rw [List.getElem?_drop] at hd
  exact ⟨d, (List.getElem?_eq_some_iff.1 hd).1, hd⟩

/-- **Every selection can be drawn**: the numbers that bring it to the front are below the length
of the array. -/
theorem exists_shuffle (hsub : ts.Subperm l) (hk : k ≤ ts.length) :
    ∃ r : ℕ → ℕ, (∀ i, r i ≤ l.length) ∧ ∃ l', shuffle r l k = some l' ∧ l'.take k = ts.take k := by
  induction k with
  | zero => exact ⟨fun _ => 0, fun _ => Nat.zero_le _, l, rfl, rfl⟩
  | succ k ih =>
    obtain ⟨r, hr, l', hl', hfront⟩ := ih (Nat.le_of_succ_le hk)
    have hkl : k < l.length := Nat.lt_of_lt_of_le hk hsub.length_le
    obtain ⟨l'', hsome, hperm⟩ := shuffle_perm (r := r) hkl.le
    obtain rfl := Option.some.inj (hl'.symm.trans hsome)
    have hlen : l'.length = l.length := hperm.length_eq
    obtain ⟨d, hd, hget⟩ := exists_index hperm hfront hsub hk
    have hdmod : d % (l.length - k) = d := Nat.mod_eq_of_lt (by omega)
    -- the numbers of the first rounds stay, and round `k` draws the distance of the entry
    let r' : ℕ → ℕ := fun i => if i = k then d else r i
    have hagree : shuffle r' l k = some l' := by
      rw [shuffle_congr fun i hi => if_neg (Nat.ne_of_lt hi), hl']
    obtain ⟨l₁, hex⟩ : ∃ l₁, exchange l' k (k + d) = some l₁ := ⟨_, exchange_of_lt (by omega) hd⟩
    refine ⟨r', fun i => ?_, l₁, ?_, ?_⟩
    · show (if i = k then d else r i) ≤ l.length
      split_ifs
      · omega
      · exact hr i
    · rw [shuffle_succ_of_lt hagree hlen hkl]
      show exchange l' k (k + (if k = k then d else r k) % (l.length - k)) = _
      rw [if_pos rfl, hdmod, hex]
    · rw [List.take_add_one, List.take_add_one, take_exchange hex le_rfl (Nat.le_add_right k d),
        hfront, getElem?_exchange hex, hget, List.getElem?_eq_getElem hk]

end UnderFlow
