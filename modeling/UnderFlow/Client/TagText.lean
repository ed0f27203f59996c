import UnderFlow.Common.Protocol
import UnderFlow.Data.RunningPrint

/-!
# The text of a set of tags

`tags_to_str` of `src/client/ui_client.c` prints the labels of the tags of a mask behind a running
length, with `get_tag_name` of `src/common/protocol.c`.

* `staysInside_iff` : it stays in its buffer exactly when the labels before the last one fit.
-/

namespace UnderFlow

/-- `TAG_DISPLAY_ORDER` -/
def tagDisplayOrder : List Tags :=
  [tagCorpA, tagCorpB, tagCorpC, tagCorpD, tagCorpE, tagCustomer, tagFinance, tagMilitary,
    tagGovernment, tagMedical, tagResearch, tagPersonal]

/-- `get_tag_name` -/
def getTagName (tagBit : Tags) : Bytes :=
  if tagBit = tagCorpA then utf8 "아사사카"
  else if tagBit = tagCorpB then utf8 "바이오젠"
  else if tagBit = tagCorpC then utf8 "넥서스"
  else if tagBit = tagCustomer then utf8 "유저DB/신상"
  else if tagBit = tagFinance then utf8 "크레딧/비자금"
  else if tagBit = tagMilitary then utf8 "전술AI/무기"
  else if tagBit = tagGovernment then utf8 "연방기밀"
  else if tagBit = tagMedical then utf8 "인체실험/바이오"
  else if tagBit = tagResearch then utf8 "프로토타입"
  else if tagBit = tagPersonal then utf8 "블랙메일/약점"
  else if tagBit = tagCorpD then utf8 "밀리테크"
  else if tagBit = tagCorpE then utf8 "레이븐"
  else utf8 "알수없음"

/-- The label of a tag, as it is printed. -/
def tagLabel (tagBit : Tags) : Bytes := utf8 "[" ++ getTagName tagBit ++ utf8 "]"

/-- The labels of the tags of a mask, in the order in which they are printed. -/
def tagLabels (mask : Tags) : List Bytes := (tagDisplayOrder.filter mask.meets).map tagLabel

/-- The calls of `snprintf` in `tags_to_str`. -/
def tagsToStr (mask : Tags) (outSz : ℕ) : List Print :=
  let loop := printFrom outSz 0 (tagLabels mask)
  loop.1 ++ if loop.2 = 0 then [⟨0, outSz, snprintf outSz (utf8 "[NO_TAG]")⟩] else []

/-- The memory at `out` after `tags_to_str`. -/
def tagsToStrOut (mask : Tags) (outSz : ℕ) (m : ℕ → UInt8) : ℕ → UInt8 :=
  putPrints (putBytes m 0 [0]) (tagsToStr mask outSz)

/-- **`tags_to_str` stays inside its buffer**: no size wraps, no byte lies outside, and a NUL is
left, whatever was in the buffer before. -/
structure StaysInside (mask : Tags) (outSz : ℕ) : Prop where
  inside : ∀ p ∈ tagsToStr mask outSz, p.Inside outSz
  terminated : ∀ m, ∃ i < outSz, tagsToStrOut mask outSz m i = 0

/-- The labels before the last one fit into the buffer. -/
def LabelsFit (mask : Tags) (outSz : ℕ) : Prop :=
  ((tagLabels mask).dropLast.map List.length).sum ≤ outSz

instance (mask : Tags) (outSz : ℕ) : Decidable (LabelsFit mask outSz) :=
  inferInstanceAs (Decidable (_ ≤ _))

variable {mask : Tags} {outSz : ℕ}

/-- The calls of the loop are inside. -/
theorem loop_inside_iff (hlt : outSz < sizeMod) :
    (∀ p ∈ (printFrom outSz 0 (tagLabels mask)).1, p.Inside outSz) ↔ LabelsFit mask outSz := by
  rw [printsInside_iff hlt, Nat.zero_add]
  constructor
  · rintro (hnil | hfit)
    · rw [LabelsFit, hnil]
      exact Nat.zero_le _
    · exact hfit
  · exact .inr

theorem calls_inside (hlt : outSz < sizeMod) (h : LabelsFit mask outSz) :
    ∀ p ∈ tagsToStr mask outSz, p.Inside outSz := by
  intro p hp
  rw [tagsToStr, List.mem_append] at hp
  rcases hp with hp | hp
  · exact (loop_inside_iff hlt).2 h p hp
  · split_ifs at hp with hzero
    · obtain rfl := List.mem_singleton.1 hp
      simp only [Print.Inside, snprintf_length]
      omega
    · cases hp

/-- A NUL is left in the buffer. -/
theorem exists_nul (hlt : outSz < sizeMod) (hpos : 1 ≤ outSz) (h : LabelsFit mask outSz)
    (m : ℕ → UInt8) : ∃ i < outSz, tagsToStrOut mask outSz m i = 0 := by
  have hstart : Terminated outSz 0 (putBytes m 0 [0]) := by simp [Terminated, putBytes]
  have hloop := terminated_prints hpos hlt hstart ((loop_inside_iff hlt).2 h)
  rw [tagsToStrOut, tagsToStr, putPrints, List.foldl_append]
  split_ifs with hzero
  · rw [hzero] at hloop
    exact ⟨_, by omega, terminated_put (utf8 "[NO_TAG]") hpos hloop (Nat.zero_le _)⟩
  · exact ⟨_, by omega, hloop⟩

/-- **The buffer is large enough** exactly when the labels before the last one fit into it. -/
theorem staysInside_iff (mask : Tags) (hpos : 1 ≤ outSz) (hlt : outSz < sizeMod) :
    StaysInside mask outSz ↔ LabelsFit mask outSz := by
  constructor
  · intro h
    refine (loop_inside_iff hlt).1 fun p hp => h.inside p ?_
    rw [tagsToStr]
    exact List.mem_append_left _ hp
  · exact fun h => ⟨calls_inside hlt h, exists_nul hlt hpos h⟩

/-- A document of the seeds in the buffer of the callers. -/
theorem staysInside_seed : StaysInside (tagCorpB ||| tagFinance) 128 :=
  (staysInside_iff (tagCorpB ||| tagFinance) (by decide) (by decide)).2 (by decide +kernel)

/-- All tags are frozen. -/
theorem not_staysInside_all : ¬ StaysInside 0xfff 128 := by
  intro h
  have hfit : LabelsFit 0xfff 128 := (loop_inside_iff (by decide)).1 fun p hp =>
    h.inside p (List.mem_append_left _ hp)
  exact absurd hfit (by decide +kernel)

end UnderFlow
