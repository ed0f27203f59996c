import UnderFlow.Server.UserFile
import Mathlib.Data.Nat.Find

/-!
# An append that is cut off

`userdb_append` returns an error when `write` accepts only a part of the record, and leaves that
part at the end of `users.dat`.  The same bytes stay when the server is killed there: starting it
again opens the file as it is.

* `userdbFind_torn` : the keys that are stored are found as before.
* `unharmed_iff` : keys that are stored later are found only if nothing was written.
-/

namespace UnderFlow

namespace UserFile

/-- `userdb_append` when `write` accepts `n` bytes; the offset is handed out for a whole record. -/
def userdbAppendTorn (f : ByteFile) (rec : RawRecord) (n : ℕ) : ByteFile × Option ℕ :=
  (writeAt f f.length (rec.toList.take n), if n = recordSize then some f.length else none)

/-- A call as the server makes it: a record is rewritten under its key, at the offset of a
record. -/
def Aligned (f : ByteFile) : UserCall → Prop
  | .append _ | .resetRound _ => True
  | .updateAt offset rec => recordSize ∣ offset ∧
      ∃ old, readRecord recordSize f offset = some old ∧ nameOf old = nameOf rec
  | .burnAt offset => recordSize ∣ offset

/-- Calls as the server makes them, one after the other. -/
def UsedFrom (e : ByteOrder) : ByteFile → List UserCall → Prop
  | _, [] => True
  | f, call :: calls => Aligned f call ∧ UsedFrom e (call.run e f) calls

/-- The file after some calls. -/
def fileFrom (e : ByteOrder) (f : ByteFile) (calls : List UserCall) : ByteFile :=
  calls.foldl (UserCall.run e) f

/-- A failed append of `torn` does no lasting damage: every stored key is found as before, and each
key that is new at some later time is found when it is appended then. -/
def Unharmed (e : ByteOrder) (recs : List RawRecord) (torn : RawRecord) (n : ℕ) : Prop :=
  let f := (userdbAppendTorn (flat recs) torn n).1
  (∀ key found, userdbFind (flat recs) key = some found → userdbFind f key = some found) ∧
    ∀ calls, UsedFrom e f calls → ∀ rec,
      userdbFind (fileFrom e f calls) (keyField rec) = none →
        ∃ off, userdbFind (userdbAppend (fileFrom e f calls) rec).1 (keyField rec) = some (rec, off)

/-- Every key is stored. -/
def Exhausted (recs : List RawRecord) : Prop :=
  ∀ rec : RawRecord, userdbFind (flat recs) (keyField rec) ≠ none

variable {e : ByteOrder} {f tail : ByteFile} {recs : List RawRecord}
  {rec torn : RawRecord} {key : Bytes}
  {n off : ℕ} {calls : List UserCall} {call : UserCall}

theorem userdbAppendTorn_flat :
    (userdbAppendTorn (flat recs) torn n).1 = flat recs ++ torn.toList.take n := writeAt_end _ _

/-! ### What is stored stays -/

/-- Less than a record behind the others is never read. -/
theorem userdbFind_tail (ht : tail.length < recordSize) :
    userdbFind (flat recs ++ tail) key = userdbFind (flat recs) key := by
  refine Option.ext fun x => ?_
  rw [userdbFind_flat ht, ← List.append_nil (flat recs), userdbFind_flat (by decide)]

/-- **The stored keys** are found as before. -/
theorem userdbFind_torn (h : n < recordSize) :
    userdbFind (userdbAppendTorn (flat recs) torn n).1 key = userdbFind (flat recs) key := by
  rw [userdbAppendTorn_flat]
  refine userdbFind_tail ?_
  rw [List.length_take]
  omega

theorem find_none_of_name (h : userdbFind (flat recs) key = none) {i : ℕ} {r : RawRecord}
    (hr : recs[i]? = some r) : nameOf r ≠ keyName key := by
  classical
  intro hname
  have hex : ∃ i r, recs[i]? = some r ∧ nameOf r = keyName key := ⟨i, r, hr, hname⟩
  obtain ⟨first, hfirst, hsame⟩ := Nat.find_spec hex
  have hsome : userdbFind (flat recs ++ []) key = some (first, recordSize * Nat.find hex) :=
    (userdbFind_flat (by decide)).2 ⟨_, rfl, hfirst, hsame, fun k hk r' hr' hno =>
      Nat.find_min hex hk ⟨r', hr', hno⟩⟩
  rw [List.append_nil, h] at hsome
  cases hsome

/-! ### Calls on records with a part of one behind them -/

/-- The record that is read across what was left behind and the next record. -/
def straddling (tail : ByteFile) (rec : RawRecord) (h : tail.length ≤ recordSize) : RawRecord :=
  ⟨(tail ++ rec.toList.take (recordSize - tail.length)).toArray, by
    simp only [List.size_toArray, List.length_append, List.length_take, Vector.length_toList]
    omega⟩

theorem append_behind (h : tail.length ≤ recordSize) : flat recs ++ tail ++ rec.toList =
    flat (recs ++ [straddling tail rec h]) ++ rec.toList.drop (recordSize - tail.length) := by
  have hstraddling : (straddling tail rec h).toList =
      tail ++ rec.toList.take (recordSize - tail.length) := rfl
  rw [flat_concat, hstraddling, List.append_assoc, List.append_assoc, List.append_assoc,
    List.take_append_drop]

theorem readRecord_aligned (ht : tail.length < recordSize) (h : recordSize ∣ off)
    (hread : readRecord recordSize (flat recs ++ tail) off = some rec) :
    ∃ i, off = recordSize * i ∧ recs[i]? = some rec := by
  obtain ⟨i, rfl⟩ := h
  exact ⟨i, rfl, by rw [← hread, readRecord_flat ht]⟩

theorem names_set {i : ℕ} {old : RawRecord} (hi : recs[i]? = some old)
    (hname : nameOf old = nameOf rec) :
    (recs.set i rec).map nameOf = recs.map nameOf := by
  obtain ⟨hlt, rfl⟩ := List.getElem?_eq_some_iff.1 hi
  refine List.ext_getElem? fun j => ?_
  rw [List.getElem?_map, List.getElem?_map, List.getElem?_set]
  split_ifs with hij
  · subst hij
    rw [List.getElem?_eq_getElem hlt, Option.map_some, Option.map_some, hname]
  · rfl

/-- **A call of the server** leaves as many bytes behind the records as there were, and the keys of
the records. -/
theorem aligned_run (ht : tail.length < recordSize) (h : Aligned (flat recs ++ tail) call) :
    ∃ (recs' : List RawRecord) (tail' : ByteFile),
    call.run e (flat recs ++ tail) = flat recs' ++ tail' ∧
      tail'.length = tail.length ∧ recs.map nameOf <+: recs'.map nameOf := by
  cases call with
  | append rec =>
    refine ⟨recs ++ [straddling tail rec ht.le],
      rec.toList.drop (recordSize - tail.length), ?_, ?_, ?_⟩
    · rw [UserCall.run, userdbAppend, writeAt_end, append_behind]
    · rw [List.length_drop, Vector.length_toList]
      omega
    · rw [List.map_append]
      exact List.prefix_append _ _
  | updateAt offset rec =>
    obtain ⟨hdvd, old, hold, hname⟩ := h
    obtain ⟨i, rfl, hi⟩ := readRecord_aligned ht hdvd hold
    refine ⟨recs.set i rec, tail, userdbUpdateAt_flat (List.getElem?_eq_some_iff.1 hi).1, rfl, ?_⟩
    exact ⟨[], by rw [List.append_nil, names_set hi hname]⟩
  | burnAt offset =>
    obtain ⟨i, rfl⟩ := h
    rcases hi : recs[i]? with _ | r
    · refine ⟨recs, tail, ?_, rfl, List.prefix_rfl⟩
      rw [UserCall.run, userdbBurnAt, readRecord_flat ht, hi]
    · refine ⟨recs.set i (burnRecord e r), tail, userdbBurnAt_flat ht hi, rfl, ?_⟩
      exact ⟨[], by rw [List.append_nil, names_set hi nameOf_burnRecord.symm]⟩
  | resetRound money =>
    refine ⟨recs.map (resetRecord e money), tail, userdbResetRound_flat ht, rfl, ?_⟩
    have hnames : (recs.map (resetRecord e money)).map nameOf = recs.map nameOf := by
      rw [List.map_map]
      exact List.map_congr_left fun r _ => nameOf_resetRecord
    exact ⟨[], by rw [List.append_nil, hnames]⟩

theorem used_run (ht : tail.length < recordSize) (h : UsedFrom e (flat recs ++ tail) calls) :
    ∃ (recs' : List RawRecord) (tail' : ByteFile),
    fileFrom e (flat recs ++ tail) calls = flat recs' ++ tail' ∧
      tail'.length = tail.length ∧ recs.map nameOf <+: recs'.map nameOf := by
  induction calls generalizing recs tail with
  | nil => exact ⟨recs, tail, rfl, rfl, List.prefix_rfl⟩
  | cons call calls ih =>
    obtain ⟨hcall, hcalls⟩ := h
    obtain ⟨recs₁, tail₁, hfile₁, hlen₁, hnames₁⟩ := aligned_run (e := e) ht hcall
    rw [hfile₁] at hcalls
    obtain ⟨recs₂, tail₂, hfile₂, hlen₂, hnames₂⟩ := ih (by omega) hcalls
    refine ⟨recs₂, tail₂, ?_, hlen₂.trans hlen₁, hnames₁.trans hnames₂⟩
    rw [← hfile₂, ← hfile₁]
    rfl

/-- A key that is stored stays found. -/
theorem find_of_names {recs' : List RawRecord} (hnames : recs.map nameOf <+: recs'.map nameOf)
    (h : userdbFind (flat recs') key = none) : userdbFind (flat recs) key = none := by
  rcases hfind : userdbFind (flat recs) key with _ | ⟨r, o⟩
  · rfl
  · rw [← List.append_nil (flat recs), userdbFind_flat (by decide)] at hfind
    obtain ⟨i, -, hi, hname, -⟩ := hfind
    have hget : (recs.map nameOf)[i]? = some (nameOf r) := by
      rw [List.getElem?_map, hi, Option.map_some]
    obtain ⟨rest, hrest⟩ := hnames
    have hlt := (List.getElem?_eq_some_iff.1 hget).1
    have hget' : (recs'.map nameOf)[i]? = some (nameOf r) := by
      rw [← hrest, List.getElem?_append_left hlt, hget]
    rw [List.getElem?_map] at hget'
    obtain ⟨r', hr', hsame⟩ := Option.map_eq_some_iff.1 hget'
    exact absurd (hsame.trans hname) (find_none_of_name h hr')

/-- A new key is found when it is appended to whole records. -/
theorem find_appended (h : userdbFind (flat recs) (keyField rec) = none) :
    userdbFind (userdbAppend (flat recs) rec).1 (keyField rec) =
      some (rec, recordSize * recs.length) := by
  rw [userdbAppend_flat, ← List.append_nil (flat _), userdbFind_flat (by decide)]
  refine ⟨recs.length, rfl, List.getElem?_concat_length, rfl, fun k hk r hr => ?_⟩
  rw [List.getElem?_append_left hk] at hr
  exact find_none_of_name h hr

/-! ### The straddling record -/

/-- The place of the last byte. -/
def lastByte : ℕ := recordSize - 1

/-- A record with another last byte than the one `n` places before it. -/
def offbeat (rec : RawRecord) (n : ℕ) : RawRecord :=
  rec.set lastByte (byteAt rec (lastByte - n) + 1)

theorem byteAt_offbeat (i : ℕ) : byteAt (offbeat rec n) i =
    if i = lastByte then byteAt rec (lastByte - n) + 1 else byteAt rec i := by
  have hlt : lastByte < recordSize := by decide
  rw [byteAt, offbeat, Vector.getElem?_set]
  by_cases hi : i = lastByte
  · rw [if_pos hi.symm, if_pos hi, Option.getD_some]
  · rw [if_neg (Ne.symm hi), if_neg hi, byteAt]

/-- The key stays. -/
theorem keyField_offbeat : keyField (offbeat rec n) = keyField rec := by
  have hlast : maxKeyLen ≤ lastByte := by decide
  rw [keyField, keyField, offbeat, Vector.toList_set, List.take_set_of_le hlast]

theorem byteAt_straddling (h : tail.length ≤ recordSize) {i : ℕ} (hn : tail.length ≤ i)
    (hi : i < recordSize) : byteAt (straddling tail rec h) i = byteAt rec (i - tail.length) := by
  have hlt : i - tail.length < recordSize - tail.length := by omega
  have hget : (straddling tail rec h).toList[i]? = rec.toList[i - tail.length]? := by
    show (tail ++ rec.toList.take (recordSize - tail.length))[i]? = _
    rw [List.getElem?_append_right hn, List.getElem?_take_of_lt hlt]
  rw [byteAt, byteAt, ← Vector.getElem?_toList, ← Vector.getElem?_toList, hget]

/-- **The straddling record is not the appended one.** -/
theorem straddling_ne (h : tail.length ≤ recordSize) (hpos : 0 < tail.length)
    (hlt : tail.length < recordSize) :
    straddling tail (offbeat rec tail.length) h ≠ offbeat rec tail.length := by
  intro heq
  have hsize : lastByte + 1 = recordSize := rfl
  have hbyte : byteAt rec (lastByte - tail.length) = byteAt rec (lastByte - tail.length) + 1 := by
    have hlast : byteAt (straddling tail (offbeat rec tail.length) h) lastByte =
        byteAt (offbeat rec tail.length) lastByte := by rw [heq]
    rwa [byteAt_straddling h (by omega) (by omega), byteAt_offbeat, byteAt_offbeat,
      if_neg (by omega),
      if_pos rfl] at hlast
  simp at hbyte

/-- A key appended behind a part of a record is not found with its record. -/
theorem lost_append (off : ℕ) (hpos : 0 < tail.length) (hlt : tail.length < recordSize)
    (hnew : userdbFind (flat recs) (keyField rec) = none) :
    userdbFind (userdbAppend (flat recs ++ tail) (offbeat rec tail.length)).1 (keyField rec) ≠
      some (offbeat rec tail.length, off) := by
  intro hfind
  have hdrop : ((offbeat rec tail.length).toList.drop (recordSize - tail.length)).length
    < recordSize := by
    rw [List.length_drop, Vector.length_toList]
    omega
  rw [userdbAppend, writeAt_end, append_behind hlt.le, userdbFind_flat hdrop] at hfind
  obtain ⟨j, -, hj, hname, -⟩ := hfind
  rcases Nat.lt_or_ge j recs.length with hold | hold
  · rw [List.getElem?_append_left hold] at hj
    exact find_none_of_name hnew hj hname
  · rw [List.getElem?_append_right hold] at hj
    have heq := List.mem_singleton.1 (List.mem_of_getElem? hj)
    exact straddling_ne hlt.le hpos hlt heq.symm

/-- A part of a record at the end loses the next new key. -/
theorem harmed_of_new (rec : RawRecord) (hpos : 0 < n) (h : n < recordSize)
    (hnew : userdbFind (flat recs) (keyField rec) = none) : ¬ Unharmed e recs torn n := by
  have hlen : (torn.toList.take n).length = n := by
    rw [List.length_take, Vector.length_toList, Nat.min_eq_left h.le]
  have ht : (torn.toList.take n).length < recordSize := by rw [hlen]; exact h
  rintro ⟨-, hlater⟩
  rw [userdbAppendTorn_flat] at hlater
  have hnone : userdbFind (flat recs ++ torn.toList.take n) (keyField (offbeat rec n)) = none := by
    rw [userdbFind_tail ht, keyField_offbeat, hnew]
  obtain ⟨off, hoff⟩ := hlater [] trivial (offbeat rec n) hnone
  have hlost := lost_append off (by rw [hlen]; exact hpos) ht hnew
  rw [hlen, ← keyField_offbeat (n := n)] at hlost
  exact hlost hoff

/-- **A failed append does lasting damage** exactly when a part of the record was written, as long
as there is a key that is not stored. -/
theorem unharmed_iff (e : ByteOrder) (recs : List RawRecord) (torn : RawRecord)
    (h : n < recordSize) :
    Unharmed e recs torn n ↔ n = 0 ∨ Exhausted recs := by
  constructor
  · intro hunharmed
    rcases Nat.eq_zero_or_pos n with hzero | hpos
    · exact .inl hzero
    · exact .inr fun rec hnone => harmed_of_new rec hpos h hnone hunharmed
  · intro hcase
    have hlen : (torn.toList.take n).length = n := by
      rw [List.length_take, Vector.length_toList, Nat.min_eq_left h.le]
    refine ⟨fun key found hfound => by rw [userdbFind_torn h, hfound],
      fun calls hcalls rec hnone => ?_⟩
    rw [userdbAppendTorn_flat] at hcalls hnone ⊢
    obtain ⟨recs', tail', hfile, hlen', hnames⟩ := used_run (by rw [hlen]; exact h) hcalls
    rw [hfile] at hnone ⊢
    rw [userdbFind_tail (by omega)] at hnone
    rcases hcase with rfl | hall
    · obtain rfl : tail' = [] := List.length_eq_zero_iff.1 (hlen'.trans hlen)
      rw [List.append_nil]
      exact ⟨_, find_appended hnone⟩
    · exact absurd (find_of_names hnames hnone) (hall rec)

/-- A record of a key of one letter. -/
def letterRecord (c : UInt8) : RawRecord := Vector.ofFn fun i => if i.val = 0 then c else 0

/-- A failed append that wrote nothing. -/
theorem unharmed_first : Unharmed .little [letterRecord 97] (letterRecord 98) 0 :=
  (unharmed_iff .little [letterRecord 97] (letterRecord 98) (by decide)).2 (.inl rfl)

/-- The append of `b` stops after 40 bytes, and `c` is not found when it is appended. -/
theorem not_unharmed : ¬ Unharmed .little [letterRecord 97] (letterRecord 98) 40 :=
  harmed_of_new (letterRecord 99) (by decide) (by decide) (by decide +kernel)

end UserFile

end UnderFlow
