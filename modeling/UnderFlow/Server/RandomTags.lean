import UnderFlow.Data.BitMask
import UnderFlow.Data.Shuffle
import UnderFlow.Server.Events
import UnderFlow.Server.Market

/-!
# The tags of a new listing

`event_random_tags` of `src/server/events.c` draws its tags with the first rounds of a shuffle.

* `eventRandomTagsChecked` : the same function with its divisors, the indices of `pool` and the
  capacity of `avail` checked.
* `drawsSubset` : what is drawn is a set of one to three unfrozen tags, and each such set is drawn.
-/

namespace UnderFlow

/-- `TAG_COUNT` -/
def tagCount : ℕ := 12

/-- The tags that are not frozen. -/
def unfrozenTags (frozen : Tags) : List Tags := tagList.filter fun t => !t.meets frozen

/-- How many tags are drawn; `r` is the value of `rand()`. -/
def pickCount (frozen : Tags) (r : ℕ) : ℕ := min (r % 3 + 1) (unfrozenTags frozen).length

/-- The loop that fills `avail`; `none` when an entry would lie behind its end. -/
def fillAvail (frozen : Tags) : List Tags → List Tags → Option (List Tags)
  | avail, [] => some avail
  | avail, t :: ts =>
    if t.meets frozen then fillAvail frozen avail ts
    else if avail.length < tagCount then fillAvail frozen (avail ++ [t]) ts
    else none

/-- The loop that unites the first entries; `none` when an entry lies outside `pool`. -/
def unitePool (pool : List Tags) : ℕ → Option Tags
  | 0 => some 0
  | k + 1 => (unitePool pool k).bind fun acc => pool[k]?.map fun t => acc ||| t

/-- `event_random_tags` with its checks. -/
def eventRandomTagsChecked (frozen : Tags) (r : ℕ → ℕ) : Option Tags :=
  (fillAvail frozen [] tagList).bind fun avail =>
    if avail = [] then some 0
    else
      let pick := min (r 0 % 3 + 1) avail.length
      (shuffle (fun i => r (i + 1)) avail pick).bind fun pool => unitePool pool pick

/-- **What `event_random_tags` is to draw**, for a mask of frozen tags. -/
structure DrawsSubset (frozen : Tags) : Prop where
  /-- No divisor is 0, and no index lies outside its array. -/
  checked : ∀ r, eventRandomTagsChecked frozen r = some (eventRandomTags frozen r)
  unfrozen : ∀ r, (eventRandomTags frozen r).meets frozen = false
  /-- No bit but those of the twelve tags. -/
  within : ∀ r, eventRandomTags frozen r &&& ~~~ unionOf tagList = 0#32
  count : ∀ r, countBits (eventRandomTags frozen r) = pickCount frozen (r 0)
  zero : ∀ r, eventRandomTags frozen r = 0 ↔ ∀ t ∈ tagList, t.meets frozen = true
  /-- Every set of one to three unfrozen tags is drawn, with small random numbers. -/
  attained : ∀ ts : List Tags, ts.Nodup → ts ⊆ unfrozenTags frozen → 1 ≤ ts.length → ts.length ≤ 3 →
    ∃ r : ℕ → ℕ, (∀ i, r i ≤ tagCount) ∧ eventRandomTags frozen r = unionOf ts

variable {frozen : Tags} {pool pool' avail ts : List Tags} {k : ℕ} {r : ℕ → ℕ}

/-! ### The loops -/

theorem fillAvail_eq (h : avail.length + ts.length ≤ tagCount) :
    fillAvail frozen avail ts = some (avail ++ ts.filter fun t => !t.meets frozen) := by
  induction ts generalizing avail with
  | nil => simp [fillAvail]
  | cons t ts ih =>
    rw [List.length_cons] at h
    rw [fillAvail]
    by_cases ht : t.meets frozen = true
    · rw [if_pos ht, ih (by omega), List.filter_cons_of_neg (by simp [ht])]
    · rw [if_neg ht, if_pos (by omega), ih (by simp; omega),
        List.filter_cons_of_pos (by simpa using ht),
        List.append_assoc]
      rfl

theorem unitePool_eq (hk : k ≤ pool.length) : unitePool pool k = some (unionOf (pool.take k)) := by
  induction k with
  | zero => rfl
  | succ k ih =>
    rw [unitePool, ih (Nat.le_of_succ_le hk), Option.bind_some, List.getElem?_eq_getElem hk,
      Option.map_some, List.take_add_one, List.getElem?_eq_getElem hk, Option.toList_some,
        unionOf_concat]

theorem exchange_eq_swapAt {i j : ℕ} (h : exchange pool i j = some pool') :
    swapAt pool i j = pool' := by
  unfold exchange at h
  split at h
  · rename_i a b ha hb
    cases h
    rw [swapAt, List.getD_eq_getElem?_getD, List.getD_eq_getElem?_getD, ha, hb, Option.getD_some,
      Option.getD_some]
  · cases h

/-- The shuffle of the source is the one with checks, where no check fails. -/
theorem shufflePool_eq (hk : k ≤ pool.length) : shuffle r pool k = some (shufflePool r pool k) := by
  induction k with
  | zero => rfl
  | succ k ih =>
    have hprev := ih (Nat.le_of_succ_le hk)
    obtain ⟨l, hl, hperm⟩ := shuffle_perm (r := r) (Nat.le_of_succ_le hk)
    obtain rfl := Option.some.inj (hprev.symm.trans hl)
    obtain ⟨l', hl', -⟩ := shuffle_perm (r := r) hk
    have hround := shuffle_succ_of_lt hprev hperm.length_eq hk
    rw [hl', shufflePool, exchange_eq_swapAt (hround.symm.trans hl')]

/-! ### The tags -/

theorem tagList_nodup : tagList.Nodup := by decide

theorem unfrozenTags_nodup : (unfrozenTags frozen).Nodup := tagList_nodup.filter _

theorem unfrozenTags_subset : unfrozenTags frozen ⊆ tagList :=
  fun _ => List.mem_of_mem_filter

theorem meets_of_unfrozen {t : Tags} (h : t ∈ unfrozenTags frozen) : t.meets frozen = false := by
  simpa using (List.mem_filter.1 h).2

theorem unfrozenTags_eq_nil : unfrozenTags frozen = [] ↔ ∀ t ∈ tagList, t.meets frozen = true := by
  simp [unfrozenTags]

/-- Each tag is a bit of its own. -/
theorem tagList_bits : tagList = (List.range tagCount).map (BitVec.twoPow 32) := by decide

theorem exists_bit {t : Tags} (h : t ∈ tagList) : ∃ i < 32, t = BitVec.twoPow 32 i := by
  rw [tagList_bits] at h
  obtain ⟨i, hi, rfl⟩ := List.mem_map.1 h
  have hlt : i < tagCount := List.mem_range.1 hi
  exact ⟨i, hlt.trans (by decide), rfl⟩

/-- Distinct tags are counted once each. -/
theorem countBits_unionOf (hnd : ts.Nodup) (hsub : ts ⊆ tagList) :
    countBits (unionOf ts) = ts.length :=
  bitCount_unionOf hnd fun _ ht => exists_bit (hsub ht)

/-! ### The draw -/

theorem pickCount_le (frozen : Tags) (n : ℕ) : pickCount frozen n ≤ (unfrozenTags frozen).length :=
  Nat.min_le_right ..

/-- The function, by the shuffle of the unfrozen tags. -/
theorem eventRandomTags_of_shuffle
    (h : shuffle (fun i => r (i + 1)) (unfrozenTags frozen) (pickCount frozen (r 0)) = some pool) :
    eventRandomTags frozen r = unionOf (pool.take (pickCount frozen (r 0))) := by
  obtain rfl := Option.some.inj ((shufflePool_eq (pickCount_le frozen _)).symm.trans h)
  unfold eventRandomTags
  show (if unfrozenTags frozen = [] then 0 else unionOf _) = _
  split_ifs with hnil
  · have hzero : pickCount frozen (r 0) = 0 := by simp [pickCount, hnil]
    rw [hzero, List.take_zero, unionOf_nil]
  · rfl

/-- **The draw**: distinct unfrozen tags, as many as were picked. -/
theorem eventRandomTags_eq (frozen : Tags) (r : ℕ → ℕ) :
    ∃ ts : List Tags, eventRandomTags frozen r = unionOf ts ∧ ts.Nodup ∧
    ts ⊆ unfrozenTags frozen ∧ ts.length = pickCount frozen (r 0) := by
  obtain ⟨pool, hpool, hperm⟩ := shuffle_perm (r := fun i => r (i + 1)) (pickCount_le frozen (r 0))
  refine ⟨pool.take (pickCount frozen (r 0)), eventRandomTags_of_shuffle hpool, ?_, ?_, ?_⟩
  · exact (hperm.nodup_iff.2 unfrozenTags_nodup).sublist (List.take_sublist _ _)
  · exact List.Subset.trans (List.take_subset _ _) hperm.subset
  · rw [List.length_take, hperm.length_eq, Nat.min_eq_left (pickCount_le frozen _)]

theorem eventRandomTags_checked :
    eventRandomTagsChecked frozen r = some (eventRandomTags frozen r) := by
  have havail : fillAvail frozen [] tagList = some (unfrozenTags frozen) :=
    fillAvail_eq (by decide)
  have hpool := shufflePool_eq (r := fun i => r (i + 1)) (pickCount_le frozen (r 0))
  have hle := pickCount_le frozen (r 0)
  rw [eventRandomTagsChecked, havail, Option.bind_some]
  split_ifs with hnil
  · have hzero : pickCount frozen (r 0) = 0 := by simp [pickCount, hnil]
    rw [eventRandomTags_of_shuffle hpool, hzero, List.take_zero, unionOf_nil]
  · show (shuffle _ (unfrozenTags frozen) (pickCount frozen (r 0))).bind
      (fun pool => unitePool pool (pickCount frozen (r 0))) = _
    obtain ⟨l, hl, hperm⟩ := shuffle_perm (r := fun i => r (i + 1)) hle
    rw [hl, Option.bind_some, unitePool_eq (by rw [hperm.length_eq]; exact hle),
      eventRandomTags_of_shuffle hl]

theorem eventRandomTags_zero : eventRandomTags frozen r = 0 ↔
    ∀ t ∈ tagList, t.meets frozen = true := by
  obtain ⟨ts, heq, hnd, hsub, hlen⟩ := eventRandomTags_eq frozen r
  rw [← unfrozenTags_eq_nil]
  constructor
  · intro hzero
    have hcount := countBits_unionOf hnd (List.Subset.trans hsub unfrozenTags_subset)
    have hnone : countBits (0 : Tags) = 0 := by decide
    rw [← heq, hzero, hnone, hlen, pickCount] at hcount
    exact List.length_eq_zero_iff.1 (by omega)
  · intro hnil
    rw [hnil, List.subset_nil] at hsub
    rw [heq, hsub, unionOf_nil]

theorem exists_eventRandomTags (hnd : ts.Nodup) (hsub : ts ⊆ unfrozenTags frozen)
    (hpos : 1 ≤ ts.length) (hle : ts.length ≤ 3) :
    ∃ r : ℕ → ℕ, (∀ i, r i ≤ tagCount) ∧ eventRandomTags frozen r = unionOf ts := by
  have hsubperm : ts.Subperm (unfrozenTags frozen) := hnd.subperm hsub
  have hcap : (unfrozenTags frozen).length ≤ tagCount := List.length_filter_le _ _
  obtain ⟨r, hr, pool, hpool, hfront⟩ := exists_shuffle hsubperm le_rfl
  -- the first number decides how many are picked, the others are those of the shuffle
  let r' : ℕ → ℕ := fun i => if i = 0 then ts.length - 1 else r (i - 1)
  have hpick : pickCount frozen (r' 0) = ts.length := by
    have hlen := hsubperm.length_le
    show min ((ts.length - 1) % 3 + 1) (unfrozenTags frozen).length = ts.length
    rw [Nat.mod_eq_of_lt (by omega)]
    omega
  refine ⟨r', fun i => ?_, ?_⟩
  · show (if i = 0 then ts.length - 1 else r (i - 1)) ≤ tagCount
    split_ifs
    · have : tagCount = 12 := rfl
      omega
    · exact (hr _).trans hcap
  · have hshuffle : shuffle (fun i => r' (i + 1)) (unfrozenTags frozen) (pickCount frozen (r' 0)) =
        some pool := by
      rw [hpick]
      exact hpool
    rw [eventRandomTags_of_shuffle hshuffle, hpick, hfront, List.take_length]

/-- **`event_random_tags` draws a random set of unfrozen tags.** -/
theorem drawsSubset (frozen : Tags) : DrawsSubset frozen where
  checked r := eventRandomTags_checked
  unfrozen r := by
    obtain ⟨ts, heq, -, hsub, -⟩ := eventRandomTags_eq frozen r
    rw [heq, meets_eq_false]
    exact unionOf_and_eq_zero fun t ht => meets_eq_false.1 (meets_of_unfrozen (hsub ht))
  within r := by
    obtain ⟨ts, heq, -, hsub, -⟩ := eventRandomTags_eq frozen r
    rw [heq]
    exact unionOf_and_not (List.Subset.trans hsub unfrozenTags_subset)
  count r := by
    obtain ⟨ts, heq, hnd, hsub, hlen⟩ := eventRandomTags_eq frozen r
    rw [heq, countBits_unionOf hnd (List.Subset.trans hsub unfrozenTags_subset), hlen]
  zero r := eventRandomTags_zero
  attained ts hnd hsub hpos hle := exists_eventRandomTags hnd hsub hpos hle

/-- Of twelve unfrozen tags two are drawn, and exchanged with later ones. -/
example : eventRandomTags 0 (fun i => [1, 3, 0].getD i 0) = tagCustomer ||| tagCorpB := by decide

end UnderFlow
