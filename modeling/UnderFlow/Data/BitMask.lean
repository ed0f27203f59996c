import Mathlib.Data.List.Nodup
import Mathlib.Data.List.Range
import Mathlib.Data.Nat.Notation

/-!
# Sets of bits

The union of bit masks, and the number of its bits when the masks are distinct single bits.
-/

namespace UnderFlow

variable {w i : ℕ} {m : BitVec w} {ms ms' : List (BitVec w)} {is : List ℕ}

/-- The union of masks. -/
def unionOf (ms : List (BitVec w)) : BitVec w := ms.foldl (fun acc m => acc ||| m) 0

/-- The number of bits that are set. -/
def bitCount (v : BitVec w) : ℕ := ((List.range w).filter v.getLsbD).length

@[simp] theorem unionOf_nil : unionOf ([] : List (BitVec w)) = 0 := rfl

theorem unionOf_concat : unionOf (ms ++ [m]) = unionOf ms ||| m := by
  rw [unionOf, List.foldl_append]
  rfl

theorem getLsbD_unionOf : (unionOf ms).getLsbD i = ms.any fun m => m.getLsbD i := by
  induction ms using List.reverseRecOn with
  | nil => simp
  | append_singleton ms m ih => rw [unionOf_concat, BitVec.getLsbD_or, ih]; simp

/-- A union meets what one of its masks meets. -/
theorem unionOf_and_eq_zero {v : BitVec w} (h : ∀ m ∈ ms, m &&& v = 0#w) :
    unionOf ms &&& v = 0#w := by
  refine BitVec.eq_of_getLsbD_eq fun i hi => ?_
  rw [BitVec.getLsbD_and, getLsbD_unionOf, BitVec.getLsbD_zero, Bool.and_eq_false_imp,
    List.any_eq_true]
  rintro ⟨m, hm, hbit⟩
  have hand := congrArg (fun x => x.getLsbD i) (h m hm)
  simpa [hbit] using hand

/-- A part of the masks has no bit outside the union of all. -/
theorem unionOf_and_not (h : ms ⊆ ms') : unionOf ms &&& ~~~ unionOf ms' = 0#w := by
  refine unionOf_and_eq_zero fun m hm => BitVec.eq_of_getLsbD_eq fun i hi => ?_
  rw [BitVec.getLsbD_and, BitVec.getLsbD_not, getLsbD_unionOf, BitVec.getLsbD_zero,
    Bool.and_eq_false_imp]
  intro hbit
  have hany : (ms'.any fun m => m.getLsbD i) = true := List.any_eq_true.2 ⟨m, h hm, hbit⟩
  simp [hany]

/-- **Distinct bits are counted once each.** -/
theorem bitCount_unionOf_twoPow (hnd : is.Nodup) (hlt : ∀ i ∈ is, i < w) :
    bitCount (unionOf (is.map (BitVec.twoPow w))) = is.length := by
  have hmem : ∀ i, i ∈ (List.range w).filter
      (unionOf (is.map (BitVec.twoPow w))).getLsbD ↔ i ∈ is := by
    intro i
    rw [List.mem_filter, List.mem_range, getLsbD_unionOf, List.any_eq_true]
    constructor
    · rintro ⟨hi, m, hm, hbit⟩
      obtain ⟨j, hj, rfl⟩ := List.mem_map.1 hm
      obtain ⟨-, rfl⟩ : j < w ∧ j = i := by simpa using hbit
      exact hj
    · intro hi
      refine ⟨hlt i hi, _, List.mem_map_of_mem hi, ?_⟩
      simp [hlt i hi]
  have hperm := (List.perm_ext_iff_of_nodup (List.nodup_range.filter _) hnd).2 hmem
  exact hperm.length_eq

/-- The same for masks that are known to be single bits. -/
theorem bitCount_unionOf (hnd : ms.Nodup) (hbit : ∀ m ∈ ms, ∃ i < w, m = BitVec.twoPow w i) :
    bitCount (unionOf ms) = ms.length := by
  obtain ⟨is, rfl, hlt⟩ : ∃ is : List ℕ, ms = is.map (BitVec.twoPow w) ∧ ∀ i ∈ is, i < w := by
    induction ms with
    | nil => exact ⟨[], rfl, by simp⟩
    | cons m ms ih =>
      obtain ⟨i, hi, rfl⟩ := hbit m (List.mem_cons_self)
      obtain ⟨is, rfl, hlt⟩ := ih hnd.of_cons fun m hm => hbit m (List.mem_cons_of_mem _ hm)
      exact ⟨i :: is, rfl, List.forall_mem_cons.2 ⟨hi, hlt⟩⟩
  rw [bitCount_unionOf_twoPow hnd.of_map hlt, List.length_map]

end UnderFlow
