import UnderFlow.Common.Protocol
import UnderFlow.Data.FlatFile
import UnderFlow.Data.Memory
import UnderFlow.LTS.Run
import Mathlib.Data.List.Induction

/-!
# The bytes of `users.dat`

`userdb/userdb.c` on the bytes of the file: a record is the memory of a `UserRecord` in the byte
order of the host, and an offset counts bytes.

* `userdbFind_flat`, `userdbResetRound_flat` : the loops over the file, record by record.
* `UserMap` : what the file stands for, a map from keys to records with their offsets.
* `Represents` : the records of a file and the map; every legal call keeps it.
* `userFile_isMap` : after any legal calls the file is the map.
-/

namespace UnderFlow

namespace UserFile

/-! ### Records -/

/-- `UserRecord` -/
def recordLayout : CType :=
  .struct [.chars maxKeyLen, .int32, .int32, .array maxInvenSize .int32]

/-- `sizeof(UserRecord)` -/
def recordSize : ℕ := recordLayout.size

/-- The offsets of `money` and `inventory_count`. -/
def moneyOff : ℕ := maxKeyLen
/-- The offset of `inventory_count` in a record. -/
def countOff : ℕ := maxKeyLen + 4

/-- The offset of `inventory_doc_ids`. -/
def docIdsOff : ℕ := maxKeyLen + 8

/-- The memory of a `UserRecord`. -/
abbrev RawRecord := Vector UInt8 recordSize

/-- The bytes of the field `key`. -/
def keyField (rec : RawRecord) : Bytes := rec.toList.take maxKeyLen

/-- `strncmp(a, b, n) == 0`; what is read past the end of a list is a NUL. -/
def strncmpEq : ℕ → Bytes → Bytes → Bool
  | 0, _, _ => true
  | n + 1, a, b =>
    if a.headD 0 ≠ b.headD 0 then false
    else if a.headD 0 = 0 then true
    else strncmpEq n a.tail b.tail

/-- The first `MAX_KEY_LEN` bytes of a C string, which is all that is compared. -/
def keyName (key : Bytes) : Bytes := (key.takeWhile (· ≠ 0)).take maxKeyLen

/-- The key of a record, without what follows its NUL. -/
def nameOf (rec : RawRecord) : Bytes := keyName (keyField rec)

/-- `memset(rec->inventory_doc_ids, 0, …)` -/
def clearDocIds (rec : RawRecord) : RawRecord :=
  Vector.ofFn fun i => if docIdsOff ≤ i then 0 else rec[i]

/-- The money and an empty inventory. -/
def withMoney (e : ByteOrder) (money : BitVec 32) (rec : RawRecord) : RawRecord :=
  clearDocIds (store e countOff 0 (store e moneyOff money rec))

/-- What `userdb_burn_at` makes of a record. -/
def burnRecord (e : ByteOrder) (rec : RawRecord) : RawRecord := withMoney e (-1) rec

/-- What `userdb_reset_round` makes of a record. -/
def resetRecord (e : ByteOrder) (money : BitVec 32) (rec : RawRecord) : RawRecord :=
  if load e moneyOff rec ≠ -1 then withMoney e money rec else rec

/-! ### The functions -/

/-- The loop of `userdb_find` from an offset on; the fuel bounds its passes. -/
def userdbFindFrom (f : ByteFile) (key : Bytes) : ℕ → ℕ → Option (RawRecord × ℕ)
  | 0, _ => none
  | fuel + 1, offset =>
    match readRecord recordSize f offset with
    | none => none
    | some rec =>
      if strncmpEq maxKeyLen key (keyField rec) then some (rec, offset)
      else userdbFindFrom f key fuel (offset + recordSize)

/-- There is at most one pass for each byte, and the last one. -/
def userdbFind (f : ByteFile) (key : Bytes) : Option (RawRecord × ℕ) :=
  userdbFindFrom f key (f.length + 1) 0

/-- `userdb_append`, on bytes. -/
def userdbAppend (f : ByteFile) (rec : RawRecord) : ByteFile × ℕ :=
  (writeAt f f.length rec.toList, f.length)

/-- `userdb_update_at`, on bytes. -/
def userdbUpdateAt (f : ByteFile) (offset : ℕ) (rec : RawRecord) : ByteFile :=
  writeAt f offset rec.toList

/-- A short read leaves the file as it is. -/
def userdbBurnAt (e : ByteOrder) (f : ByteFile) (offset : ℕ) : ByteFile :=
  match readRecord recordSize f offset with
  | none => f
  | some rec => writeAt f offset (burnRecord e rec).toList

/-- The loop of `userdb_reset_round` from an offset on. -/
def userdbResetFrom (e : ByteOrder) (money : BitVec 32) : ℕ → ByteFile → ℕ → ByteFile
  | 0, f, _ => f
  | fuel + 1, f, offset =>
    match readRecord recordSize f offset with
    | none => f
    | some rec =>
      let f' := if load e moneyOff rec ≠ -1 then
        writeAt f offset (withMoney e money rec).toList else f
      userdbResetFrom e money fuel f' (offset + recordSize)

/-- `userdb_reset_round`, on bytes. -/
def userdbResetRound (e : ByteOrder) (f : ByteFile) (money : BitVec 32) : ByteFile :=
  userdbResetFrom e money (f.length + 1) f 0

/-! ### Keys -/

variable {e : ByteOrder} {f tail : ByteFile} {recs : List RawRecord} {rec : RawRecord}
  {key : Bytes} {i off fuel : ℕ} {money : BitVec 32}

/-- **Two keys are compared** by their first `MAX_KEY_LEN` bytes before a NUL. -/
theorem strncmpEq_iff (n : ℕ) (a b : Bytes) : strncmpEq n a b = true ↔
    (a.takeWhile (· ≠ 0)).take n = (b.takeWhile (· ≠ 0)).take n := by
  induction n generalizing a b with
  | zero => simp [strncmpEq]
  | succ n ih =>
    rcases a with _ | ⟨x, a⟩ <;> rcases b with _ | ⟨y, b⟩
    · simp [strncmpEq]
    · by_cases hy : y = 0
      · simp [strncmpEq, hy]
      · simp [strncmpEq, hy, Ne.symm hy]
    · by_cases hx : x = 0
      · simp [strncmpEq, hx]
      · simp [strncmpEq, hx]
    · by_cases hxy : x = y
      · subst hxy
        by_cases hx : x = 0
        · simp [strncmpEq, hx]
        · simp [strncmpEq, hx, ih]
      · by_cases hx : x = 0
        · subst hx
          simp [strncmpEq, hxy, Ne.symm hxy]
        · by_cases hy : y = 0
          · subst hy
            simp [strncmpEq, hxy]
          · simp [strncmpEq, hxy, hx, hy]

theorem strncmpEq_key : strncmpEq maxKeyLen key (keyField rec) = true ↔ nameOf rec = keyName key :=
  (strncmpEq_iff ..).trans eq_comm

/-! ### The loops, record by record -/

/-- **The lookup** finds the first record of the key. -/
theorem userdbFindFrom_flat (ht : tail.length < recordSize) (hfuel : recs.length < fuel + i)
    {off : ℕ} : userdbFindFrom (flat recs ++ tail) key fuel (recordSize * i) = some (rec, off) ↔
      ∃ j, i ≤ j ∧ off = recordSize * j ∧ recs[j]? = some rec ∧ nameOf rec = keyName key ∧
        ∀ k, i ≤ k → k < j → ∀ r, recs[k]? = some r → nameOf r ≠ keyName key := by
  induction fuel generalizing i with
  | zero =>
    simp only [userdbFindFrom, reduceCtorEq, false_iff]
    rintro ⟨j, hij, -, hj, -⟩
    rw [List.getElem?_eq_none (by omega)] at hj
    cases hj
  | succ fuel ih =>
    rw [userdbFindFrom, readRecord_flat ht]
    rcases hi : recs[i]? with _ | r
    · simp only [reduceCtorEq, false_iff]
      rintro ⟨j, hij, -, hj, -⟩
      have hlen := List.getElem?_eq_none_iff.1 hi
      rw [List.getElem?_eq_none (by omega)] at hj
      cases hj
    · simp only [strncmpEq_key]
      split_ifs with hname
      · constructor
        · rintro ⟨⟩
          exact ⟨i, le_rfl, rfl, hi, hname, fun k hik hki => by omega⟩
        · rintro ⟨j, hij, rfl, hj, hnamej, hno⟩
          rcases Nat.lt_or_eq_of_le hij with hlt | rfl
          · exact absurd hname (hno i le_rfl hlt r hi)
          · rw [hi] at hj
            cases hj
            rfl
      · rw [← Nat.mul_succ, ih (by omega)]
        constructor
        · rintro ⟨j, hij, hoff, hj, hnamej, hno⟩
          refine ⟨j, by omega, hoff, hj, hnamej, fun k hik hkj r' hr' => ?_⟩
          rcases Nat.lt_or_eq_of_le hik with hlt | rfl
          · exact hno k hlt hkj r' hr'
          · rw [hi] at hr'
            cases hr'
            exact hname
        · rintro ⟨j, hij, hoff, hj, hnamej, hno⟩
          have hne : i ≠ j := by
            rintro rfl
            rw [hi] at hj
            cases hj
            exact hname hnamej
          exact ⟨j, by omega, hoff, hj, hnamej, fun k hik hkj => hno k (by omega) hkj⟩

theorem records_le (recs : List RawRecord) (tail : ByteFile) :
    recs.length ≤ (flat recs ++ tail).length := by
  have hpos : 1 * recs.length ≤ recordSize * recs.length := Nat.mul_le_mul_right _ (by decide)
  rw [List.length_append, flat_length]
  omega

theorem userdbFind_flat (ht : tail.length < recordSize) {off : ℕ} :
    userdbFind (flat recs ++ tail) key = some (rec, off) ↔
      ∃ j, off = recordSize * j ∧ recs[j]? = some rec ∧ nameOf rec = keyName key ∧
        ∀ k < j, ∀ r, recs[k]? = some r → nameOf r ≠ keyName key := by
  have hle := records_le recs tail
  have hfuel : recs.length < (flat recs ++ tail).length + 1 + 0 := by omega
  show userdbFindFrom (flat recs ++ tail) key _ (recordSize * 0) = some (rec, off) ↔ _
  rw [userdbFindFrom_flat ht hfuel]
  simp

theorem resetRecord_step (hi : recs[i]? = some rec) :
    (if load e moneyOff rec ≠ -1 then
        writeAt (flat recs ++ tail) (recordSize * i) (withMoney e money rec).toList
      else flat recs ++ tail) =
      flat (recs.set i (resetRecord e money rec)) ++ tail := by
  obtain ⟨hlt, heq⟩ := List.getElem?_eq_some_iff.1 hi
  by_cases hburned : load e moneyOff rec ≠ -1
  · rw [if_pos hburned, writeAt_flat hlt, resetRecord, if_pos hburned]
  · have hself := List.set_getElem_self hlt
    rw [heq] at hself
    rw [if_neg hburned, resetRecord, if_neg hburned, hself]

/-- **The reset** rewrites the records one after the other. -/
theorem userdbResetFrom_flat (ht : tail.length < recordSize) (hfuel : recs.length < fuel + i) :
    userdbResetFrom e money fuel (flat recs ++ tail) (recordSize * i) =
      flat (recs.take i ++ (recs.drop i).map (resetRecord e money)) ++ tail := by
  induction fuel generalizing recs i with
  | zero =>
    rw [userdbResetFrom, List.take_of_length_le (by omega), List.drop_eq_nil_of_le (by omega)]
    simp
  | succ fuel ih =>
    rw [userdbResetFrom, readRecord_flat ht]
    rcases hi : recs[i]? with _ | r
    · have hlen := List.getElem?_eq_none_iff.1 hi
      rw [List.take_of_length_le hlen, List.drop_eq_nil_of_le hlen]
      simp
    · obtain ⟨hlt, heq⟩ := List.getElem?_eq_some_iff.1 hi
      simp only [resetRecord_step hi]
      rw [← Nat.mul_succ, ih (by rw [List.length_set]; omega),
        List.drop_set_of_lt (Nat.lt_succ_self i),
        List.take_add_one, List.getElem?_set_self hlt, List.take_set_of_le le_rfl,
        List.drop_eq_getElem_cons hlt, heq, List.map_cons, Option.toList_some, List.append_assoc]
      rfl

theorem userdbResetRound_flat (ht : tail.length < recordSize) :
    userdbResetRound e (flat recs ++ tail) money =
      flat (recs.map (resetRecord e money)) ++ tail := by
  have hle := records_le recs tail
  have hfuel : recs.length < (flat recs ++ tail).length + 1 + 0 := by omega
  show userdbResetFrom e money _ (flat recs ++ tail) (recordSize * 0) = _
  rw [userdbResetFrom_flat ht hfuel, List.take_zero, List.drop_zero, List.nil_append]

theorem userdbBurnAt_flat (ht : tail.length < recordSize) (hi : recs[i]? = some rec) :
    userdbBurnAt e (flat recs ++ tail) (recordSize * i) =
      flat (recs.set i (burnRecord e rec)) ++ tail := by
  rw [userdbBurnAt, readRecord_flat ht, hi]
  exact writeAt_flat (List.getElem?_eq_some_iff.1 hi).1

theorem userdbUpdateAt_flat (hi : i < recs.length) :
    userdbUpdateAt (flat recs ++ tail) (recordSize * i) rec = flat (recs.set i rec) ++ tail :=
  writeAt_flat hi

theorem userdbAppend_flat : userdbAppend (flat recs) rec =
    (flat (recs ++ [rec]), recordSize * recs.length) := by
  rw [userdbAppend, writeAt_end, flat_concat, flat_length]

/-! ### The fields of a rewritten record -/

theorem byteAt_clearDocIds (i : ℕ) :
    byteAt (clearDocIds rec) i = if docIdsOff ≤ i then 0 else byteAt rec i := by
  by_cases hi : i < recordSize
  · rw [byteAt_of_lt hi, byteAt_of_lt hi, clearDocIds, Vector.getElem_ofFn]
    rfl
  · rw [byteAt_of_le (Nat.not_lt.1 hi), byteAt_of_le (Nat.not_lt.1 hi), ite_self]

theorem byteAt_withMoney (i : ℕ) : byteAt (withMoney e money rec) i =
    if docIdsOff ≤ i then 0
    else if countOff ≤ i ∧ i < countOff + 4 then byteOf 0 (e.place (i - countOff))
    else if moneyOff ≤ i ∧ i < moneyOff + 4 then byteOf money (e.place (i - moneyOff))
    else byteAt rec i := by
  rw [withMoney, byteAt_clearDocIds, byteAt_store (by decide), byteAt_store (by decide)]

/-- The key is not touched. -/
theorem keyField_withMoney : keyField (withMoney e money rec) = keyField rec := by
  refine List.ext_getElem? fun i => ?_
  rw [keyField, keyField, List.getElem?_take, List.getElem?_take]
  split_ifs with hi
  · have hlt : i < recordSize := Nat.lt_of_lt_of_le hi (by decide)
    have hbyte : byteAt (withMoney e money rec) i = _ := byteAt_withMoney i
    have h1 : ¬ docIdsOff ≤ i := by simp only [docIdsOff]; omega
    have h2 : ¬ (countOff ≤ i ∧ i < countOff + 4) := by simp only [countOff]; omega
    have h3 : ¬ (moneyOff ≤ i ∧ i < moneyOff + 4) := by simp only [moneyOff]; omega
    rw [if_neg h1, if_neg h2, if_neg h3, byteAt_of_lt hlt, byteAt_of_lt hlt] at hbyte
    simpa [hlt] using hbyte
  · rfl

theorem byteOf_zero (k : ℕ) : byteOf 0 k = 0 := by simp [byteOf]

theorem load_money_withMoney : load e moneyOff (withMoney e money rec) = money := by
  refine load_eq fun k hk => ?_
  rw [byteAt_withMoney, if_neg (by simp only [moneyOff, docIdsOff]; omega),
    if_neg (by simp only [moneyOff, countOff]; omega), if_pos (by omega), Nat.add_sub_cancel_left]

theorem load_count_withMoney : load e countOff (withMoney e money rec) = 0 := by
  refine load_eq fun k hk => ?_
  rw [byteAt_withMoney, if_neg (by simp only [countOff, docIdsOff]; omega), if_pos (by omega),
    byteOf_zero, byteOf_zero]

theorem load_docIds_withMoney (hi : docIdsOff ≤ off) :
    load e off (withMoney e money rec) = 0 := by
  refine load_eq fun k hk => ?_
  rw [byteAt_withMoney, if_pos (by omega), byteOf_zero]

@[simp] theorem nameOf_withMoney : nameOf (withMoney e money rec) = nameOf rec := by
  rw [nameOf, keyField_withMoney, nameOf]

@[simp] theorem nameOf_burnRecord : nameOf (burnRecord e rec) = nameOf rec := nameOf_withMoney

@[simp] theorem nameOf_resetRecord : nameOf (resetRecord e money rec) = nameOf rec := by
  unfold resetRecord
  split_ifs
  · exact nameOf_withMoney
  · rfl

/-! ### The map of the file -/

/-- A call that writes the file. -/
inductive UserCall where
  | append (rec : RawRecord)
  | updateAt (offset : ℕ) (rec : RawRecord)
  | burnAt (offset : ℕ)
  | resetRound (initialMoney : BitVec 32)

/-- What the call leaves of the file. -/
def UserCall.run (e : ByteOrder) (f : ByteFile) : UserCall → ByteFile
  | append rec => (userdbAppend f rec).1
  | updateAt offset rec => userdbUpdateAt f offset rec
  | burnAt offset => userdbBurnAt e f offset
  | resetRound money => userdbResetRound e f money

/-- The file after some calls, from an empty one on. -/
def fileAfter (e : ByteOrder) (calls : List UserCall) : ByteFile :=
  calls.foldl (UserCall.run e) []

/-- What the file stands for: each key has the last record written for it, and its offset. -/
structure UserMap where
  /-- How many keys were appended. -/
  count : ℕ
  /-- The record of a key, and its offset. -/
  entry : Bytes → Option (RawRecord × ℕ)

/-- What a call means for the map. -/
def UserCall.apply (e : ByteOrder) (m : UserMap) : UserCall → UserMap
  | append rec =>
    { count := m.count + 1
      entry := fun k => if k = nameOf rec then some (rec, recordSize * m.count) else m.entry k }
  | updateAt _ rec =>
    { m with
      entry := fun k =>
        if k = nameOf rec then (m.entry k).map fun x => (rec, x.2) else m.entry k }
  | burnAt offset =>
    { m with
      entry := fun k =>
        (m.entry k).map fun x => if x.2 = offset then (burnRecord e x.1, x.2) else x }
  | resetRound money =>
    { m with entry := fun k => (m.entry k).map fun x => (resetRecord e money x.1, x.2) }

/-- The map after some calls, from an empty one on. -/
def mapAfter (e : ByteOrder) (calls : List UserCall) : UserMap :=
  calls.foldl (UserCall.apply e) ⟨0, fun _ => none⟩

/-- An earlier lookup or append has returned the offset. -/
def Returned (e : ByteOrder) (calls : List UserCall) (offset : ℕ) : Prop :=
  ∃ before after, calls = before ++ after ∧
    ((∃ rec rest, after = .append rec :: rest ∧
        offset = (userdbAppend (fileAfter e before) rec).2) ∨
      ∃ key rec, userdbFind (fileAfter e before) key = some (rec, offset))

/-- The calls the database is used with, after the calls before. -/
def Legal (e : ByteOrder) (calls : List UserCall) : UserCall → Prop
  | .append rec => ∀ rec', UserCall.append rec' ∈ calls → nameOf rec' ≠ nameOf rec
  | .updateAt offset rec => Returned e calls offset ∧
      ∀ old, readRecord recordSize (fileAfter e calls) offset = some old → nameOf old = nameOf rec
  | .burnAt offset => Returned e calls offset
  | .resetRound _ => True

/-- The records are those of the map, each key once. -/
structure Represents (recs : List RawRecord) (m : UserMap) : Prop where
  count_eq : m.count = recs.length
  entry_iff : ∀ (k : Bytes) (rec : RawRecord) (off : ℕ), m.entry k = some (rec, off) ↔
    ∃ i, off = recordSize * i ∧ recs[i]? = some rec ∧ nameOf rec = k
  distinct : ∀ (i j : ℕ) (r r' : RawRecord), recs[i]? = some r → recs[j]? = some r' →
    nameOf r = nameOf r' → i = j

/-! ### Calls, record by record -/

variable {recs' : List RawRecord} {m m' : UserMap} {calls : List UserCall} {call : UserCall}

/-- Records that are rewritten under their keys. -/
theorem Represents.rewrite (h : Represents recs m) (g : ℕ → RawRecord → RawRecord)
    (hrecs : ∀ i, recs'[i]? = recs[i]?.map (g i))
    (hname : ∀ i r, recs[i]? = some r → nameOf (g i r) = nameOf r) (hcount : m'.count = m.count)
    (hentry : ∀ i r, recs[i]? = some r → m'.entry (nameOf r) = some (g i r, recordSize * i))
    (hnone : ∀ k, m.entry k = none → m'.entry k = none) : Represents recs' m' := by
  have hold : ∀ i r', recs'[i]? = some r' → ∃ r, recs[i]? = some r ∧ r' = g i r := by
    intro i r' hr'
    rw [hrecs i] at hr'
    obtain ⟨r, hr, heq⟩ := Option.map_eq_some_iff.1 hr'
    exact ⟨r, hr, heq.symm⟩
  refine ⟨?_, fun k rec off => ⟨fun hk => ?_, ?_⟩, fun i j r r' hr hr' hsame => ?_⟩
  · have heq : recs' = recs.mapIdx g := List.ext_getElem? fun i => by
      rw [hrecs i, List.getElem?_mapIdx]
    rw [hcount, h.count_eq, heq, List.length_mapIdx]
  · rcases hm : m.entry k with _ | ⟨r, o⟩
    · rw [hnone k hm] at hk
      cases hk
    · obtain ⟨i, -, hi, rfl⟩ := (h.entry_iff k r o).1 hm
      rw [hentry i r hi] at hk
      cases hk
      exact ⟨i, rfl, by rw [hrecs i, hi, Option.map_some], hname i r hi⟩
  · rintro ⟨i, rfl, hi, rfl⟩
    obtain ⟨r, hr, rfl⟩ := hold i rec hi
    rw [hname i r hr, hentry i r hr]
  · obtain ⟨old, hold₁, rfl⟩ := hold i r hr
    obtain ⟨old', hold₂, rfl⟩ := hold j r' hr'
    rw [hname i old hold₁, hname j old' hold₂] at hsame
    exact h.distinct i j old old' hold₁ hold₂ hsame

theorem Represents.entry_of (h : Represents recs m) (hi : recs[i]? = some rec) :
    m.entry (nameOf rec) = some (rec, recordSize * i) :=
  (h.entry_iff _ _ _).2 ⟨i, rfl, hi, rfl⟩

theorem recordSize_inj {i j : ℕ} : recordSize * i = recordSize * j ↔ i = j :=
  Nat.mul_right_inj (by decide)

theorem Represents.append (h : Represents recs m) (hnew : m.entry (nameOf rec) = none) :
    Represents (recs ++ [rec]) (UserCall.apply e m (.append rec)) := by
  have hfresh : ∀ (i : ℕ) (r : RawRecord), recs[i]? = some r → nameOf r ≠ nameOf rec := by
    intro i r hr hsame
    have hentry := h.entry_of hr
    rw [hsame, hnew] at hentry
    cases hentry
  have hget : ∀ (i : ℕ) (r : RawRecord), (recs ++ [rec])[i]? = some r ↔
      recs[i]? = some r ∨ (i = recs.length ∧ r = rec) := by
    intro i r
    rw [List.getElem?_append]
    split_ifs with hi
    · exact ⟨.inl, fun hor => hor.elim id fun hlast => absurd hlast.1 (by omega)⟩
    · rw [List.getElem?_eq_none (Nat.not_lt.1 hi), List.getElem?_singleton]
      split_ifs with hz
      · simp only [Option.some.injEq, false_or]
        exact ⟨fun heq => ⟨by omega, heq.symm⟩, fun hlast => hlast.2.symm⟩
      · simp only [false_or, false_iff]
        rintro ⟨hlast, -⟩
        omega
  refine ⟨?_, fun k r off => ?_, fun i j r r' hr hr' hsame => ?_⟩
  · show m.count + 1 = _
    rw [h.count_eq, List.length_append, List.length_singleton]
  · simp only [UserCall.apply, hget]
    split_ifs with hk
    · subst hk
      constructor
      · rintro ⟨⟩
        exact ⟨recs.length, by rw [h.count_eq], .inr ⟨rfl, rfl⟩, rfl⟩
      · rintro ⟨i, rfl, hi | ⟨rfl, rfl⟩, hname⟩
        · exact absurd hname (hfresh i r hi)
        · rw [h.count_eq]
    · rw [h.entry_iff]
      constructor
      · rintro ⟨i, hoff, hi, hname⟩
        exact ⟨i, hoff, .inl hi, hname⟩
      · rintro ⟨i, hoff, hi | ⟨rfl, rfl⟩, hname⟩
        · exact ⟨i, hoff, hi, hname⟩
        · exact absurd hname.symm hk
  · rcases (hget i r).1 hr with hi | ⟨rfl, rfl⟩ <;> rcases (hget j r').1 hr' with hj | ⟨rfl, rfl⟩
    · exact h.distinct i j r r' hi hj hsame
    · exact absurd hsame (hfresh i r hi)
    · exact absurd hsame.symm (hfresh j r' hj)
    · rfl

theorem Represents.updateAt (h : Represents recs m) {old : RawRecord} (hi : recs[i]? = some old)
    (hname : nameOf old = nameOf rec) :
    Represents (recs.set i rec) (UserCall.apply e m (.updateAt (recordSize * i) rec)) := by
  have hlt := (List.getElem?_eq_some_iff.1 hi).1
  refine h.rewrite (fun j r => if j = i then rec else r) (fun j => ?_) (fun j r hr => ?_) rfl
    (fun j r hr => ?_) (fun k hk => ?_)
  · rw [List.getElem?_set]
    by_cases hj : i = j
    · subst hj
      rw [if_pos rfl, if_pos hlt, hi]
      simp
    · rw [if_neg hj]
      simp [Ne.symm hj]
  · by_cases hj : j = i
    · subst hj
      rw [hi] at hr
      cases hr
      rw [if_pos rfl, hname]
    · rw [if_neg hj]
  · simp only [UserCall.apply]
    by_cases hj : j = i
    · subst hj
      rw [hi] at hr
      cases hr
      rw [if_pos hname, h.entry_of hi]
      simp
    · have hne : nameOf r ≠ nameOf rec := by
        rw [← hname]
        exact fun hsame => hj (h.distinct j i r old hr hi hsame)
      rw [if_neg hne, h.entry_of hr]
      simp [hj]
  · simp only [UserCall.apply]
    split_ifs
    · rw [hk, Option.map_none]
    · exact hk

theorem Represents.burnAt (h : Represents recs m) (hi : recs[i]? = some rec) :
    Represents (recs.set i (burnRecord e rec)) (UserCall.apply e m (.burnAt (recordSize * i))) := by
  have hlt := (List.getElem?_eq_some_iff.1 hi).1
  refine h.rewrite (fun j r => if j = i then burnRecord e r else r) (fun j => ?_) (fun j r hr => ?_)
    rfl (fun j r hr => ?_) (fun k hk => ?_)
  · rw [List.getElem?_set]
    by_cases hj : i = j
    · subst hj
      rw [if_pos rfl, if_pos hlt, hi]
      simp
    · rw [if_neg hj]
      simp [Ne.symm hj]
  · split_ifs
    · exact nameOf_burnRecord
    · rfl
  · simp only [UserCall.apply, h.entry_of hr, Option.map_some, recordSize_inj]
    split_ifs <;> rfl
  · simp only [UserCall.apply, hk, Option.map_none]

theorem Represents.resetRound (h : Represents recs m) :
    Represents (recs.map (resetRecord e money)) (UserCall.apply e m (.resetRound money)) := by
  refine h.rewrite (fun _ r => resetRecord e money r) (fun j => List.getElem?_map)
    (fun j r _ => nameOf_resetRecord) rfl (fun j r hr => ?_) (fun k hk => ?_)
  · simp only [UserCall.apply, h.entry_of hr, Option.map_some]
  · simp only [UserCall.apply, hk, Option.map_none]

/-- A lookup of a represented file is a lookup in the map. -/
theorem Represents.find (h : Represents recs m) (key : Bytes) :
    userdbFind (flat recs) key = m.entry (keyName key) := by
  refine Option.ext fun ⟨rec, off⟩ => ?_
  rw [← List.append_nil (flat recs), userdbFind_flat (by decide), h.entry_iff]
  constructor
  · rintro ⟨j, hoff, hj, hname, -⟩
    exact ⟨j, hoff, hj, hname⟩
  · rintro ⟨j, hoff, hj, hname⟩
    refine ⟨j, hoff, hj, hname, fun k hk r hr hsame => ?_⟩
    have hjk := h.distinct k j r rec hr hj (hsame.trans hname.symm)
    omega

/-! ### The file as a map -/

/-- What a call makes of the record with an index, if `count` records were there. -/
def UserCall.rewrites (e : ByteOrder) (count i : ℕ) (old : Option RawRecord) :
    UserCall → Option RawRecord
  | append rec => if i = count then some rec else old
  | updateAt offset rec => if recordSize * i = offset then some rec else old
  | burnAt offset => if recordSize * i = offset then old.map (burnRecord e) else old
  | resetRound money => old.map (resetRecord e money)

/-- The money is set, the inventory is emptied, and the key is kept. -/
structure Refilled (e : ByteOrder) (money : BitVec 32) (old new : RawRecord) : Prop where
  money_eq : load e moneyOff new = money
  count_eq : load e countOff new = 0
  docIds : ∀ k < maxInvenSize, load e (docIdsOff + 4 * k) new = 0
  key : keyField new = keyField old

/-- The file is a map from keys to records. -/
structure IsMap (e : ByteOrder) (calls : List UserCall) : Prop where
  /-- A lookup finds the last record written for the key. -/
  finds : ∀ key, userdbFind (fileAfter e calls) key = (mapAfter e calls).entry (keyName key)
  /-- It fails exactly when the key was never appended. -/
  fails : ∀ key, userdbFind (fileAfter e calls) key = none ↔
    ∀ rec, UserCall.append rec ∈ calls → nameOf rec ≠ keyName key
  /-- The offset of a key stays. -/
  stays : ∀ before, before <+: calls → ∀ key rec off,
    userdbFind (fileAfter e before) key = some (rec, off) →
      ∃ rec', userdbFind (fileAfter e calls) key = some (rec', off)
  /-- A call changes no record but its own. -/
  changes : ∀ before call, before ++ [call] <+: calls → ∀ i,
    readRecord recordSize (fileAfter e (before ++ [call])) (recordSize * i) =
      call.rewrites e (mapAfter e before).count i
        (readRecord recordSize (fileAfter e before) (recordSize * i))
  /-- A burned record has the money `-1` and an empty inventory. -/
  burns : ∀ rec, Refilled e (-1) rec (burnRecord e rec)
  /-- A reset changes exactly the records that are not burned. -/
  resets : ∀ money rec, (load e moneyOff rec = -1 → resetRecord e money rec = rec) ∧
    (load e moneyOff rec ≠ -1 → Refilled e money rec (resetRecord e money rec))
  /-- The file is a whole number of records. -/
  whole : (fileAfter e calls).length = recordSize * (mapAfter e calls).count
  /-- Their keys are pairwise different. -/
  distinct : ∀ i j r r', readRecord recordSize (fileAfter e calls) (recordSize * i) = some r →
    readRecord recordSize (fileAfter e calls) (recordSize * j) = some r' → nameOf r = nameOf r' →
      i = j

theorem refilled_withMoney (e : ByteOrder) (money : BitVec 32) (rec : RawRecord) :
    Refilled e money rec (withMoney e money rec) where
  money_eq := load_money_withMoney
  count_eq := load_count_withMoney
  docIds _ _ := load_docIds_withMoney (Nat.le_add_right _ _)
  key := keyField_withMoney

/-! ### Runs -/

theorem fileAfter_concat (calls : List UserCall) (call : UserCall) :
    fileAfter e (calls ++ [call]) = call.run e (fileAfter e calls) := List.foldl_concat ..

theorem mapAfter_concat (calls : List UserCall) (call : UserCall) :
    mapAfter e (calls ++ [call]) = call.apply e (mapAfter e calls) := List.foldl_concat ..

theorem count_le_apply (m : UserMap) (call : UserCall) : m.count ≤ (call.apply e m).count := by
  cases call with
  | append rec => exact Nat.le_succ _
  | _ => exact le_rfl

theorem count_mono {before : List UserCall} (h : before <+: calls) :
    (mapAfter e before).count ≤ (mapAfter e calls).count := by
  obtain ⟨rest, rfl⟩ := h
  induction rest using List.reverseRecOn with
  | nil => rw [List.append_nil]
  | append_singleton rest call ih =>
    rw [← List.append_assoc, mapAfter_concat]
    exact ih.trans (count_le_apply _ _)

/-- A key has no entry exactly when it was never appended. -/
theorem entry_eq_none (calls : List UserCall) (k : Bytes) : (mapAfter e calls).entry k = none ↔
    ∀ rec, UserCall.append rec ∈ calls → nameOf rec ≠ k := by
  induction calls using List.reverseRecOn with
  | nil => simp [mapAfter]
  | append_singleton calls call ih =>
    rw [mapAfter_concat]
    cases call with
    | append rec =>
      simp only [UserCall.apply, List.mem_append, List.mem_singleton]
      split_ifs with hk
      · simp only [false_iff]
        exact fun hall => hall rec (.inr rfl) hk.symm
      · rw [ih]
        constructor
        · rintro hall r (hr | hr)
          · exact hall r hr
          · cases hr
            exact fun hsame => hk hsame.symm
        · exact fun hall r hr => hall r (.inl hr)
    | updateAt offset rec =>
      simp only [UserCall.apply]
      split_ifs <;> simp [ih]
    | burnAt offset | resetRound money => simp [UserCall.apply, ih]

/-- An offset that was returned is that of a record. -/
theorem index_of_returned
    (hall : ∀ before, before <+: calls →
      ∃ recs, fileAfter e before = flat recs ∧ Represents recs (mapAfter e before))
    (h : Returned e calls off) : ∃ i, off = recordSize * i ∧ i < (mapAfter e calls).count := by
  obtain ⟨before, after, rfl, h⟩ := h
  obtain ⟨recs, hfile, hrep⟩ := hall before ⟨after, rfl⟩
  rcases h with ⟨rec, rest, rfl, hoff⟩ | ⟨key, rec, hfind⟩
  · refine ⟨recs.length, ?_, ?_⟩
    · rw [hoff, hfile, userdbAppend_flat]
    · have hmono := count_mono (e := e)
        (show before ++ [.append rec] <+: before ++ .append rec :: rest from ⟨rest, by simp⟩)
      rw [mapAfter_concat] at hmono
      rw [← hrep.count_eq]
      exact hmono
  · rw [hfile, hrep.find, hrep.entry_iff] at hfind
    obtain ⟨i, hoff, hi, -⟩ := hfind
    have hlt := (List.getElem?_eq_some_iff.1 hi).1
    have hmono := count_mono (e := e) (show before <+: before ++ after from ⟨after, rfl⟩)
    rw [hrep.count_eq] at hmono
    exact ⟨i, hoff, by omega⟩

/-- **A legal call** keeps the file a map. -/
theorem represents_call (hfile : fileAfter e calls = flat recs)
    (hrep : Represents recs (mapAfter e calls)) (hlegal : Legal e calls call)
    (hreturned : ∀ off, Returned e calls off →
      ∃ i, off = recordSize * i ∧ i < (mapAfter e calls).count) :
    ∃ recs', fileAfter e (calls ++ [call]) = flat recs' ∧
      Represents recs' (mapAfter e (calls ++ [call])) ∧
      ∀ i, recs'[i]? = call.rewrites e recs.length i recs[i]? := by
  have hflat : fileAfter e calls = flat recs ++ [] := by rw [hfile, List.append_nil]
  rw [fileAfter_concat, mapAfter_concat]
  cases call with
  | append rec =>
    refine ⟨recs ++ [rec], ?_, hrep.append ((entry_eq_none calls _).2 hlegal), fun i => ?_⟩
    · rw [UserCall.run, hfile, userdbAppend_flat]
    · simp only [UserCall.rewrites]
      split_ifs with hi
      · rw [hi, List.getElem?_concat_length]
      · rcases Nat.lt_or_gt_of_ne hi with hlt | hgt
        · rw [List.getElem?_append_left hlt]
        · rw [List.getElem?_eq_none (by simp; omega), List.getElem?_eq_none hgt.le]
  | updateAt offset rec =>
    obtain ⟨i, rfl, hlt⟩ := hreturned offset hlegal.1
    rw [hrep.count_eq] at hlt
    have hi := List.getElem?_eq_getElem hlt
    have hname := hlegal.2 recs[i] (by rw [hflat, readRecord_flat (by decide), hi])
    refine ⟨recs.set i rec, ?_, hrep.updateAt hi hname, fun j => ?_⟩
    · rw [UserCall.run, hflat, userdbUpdateAt_flat hlt, List.append_nil]
    · simp only [UserCall.rewrites, recordSize_inj]
      rw [List.getElem?_set]
      by_cases hj : i = j
      · rw [if_pos hj, if_pos hlt, if_pos hj.symm]
      · rw [if_neg hj, if_neg (Ne.symm hj)]
  | burnAt offset =>
    obtain ⟨i, rfl, hlt⟩ := hreturned offset hlegal
    rw [hrep.count_eq] at hlt
    have hi := List.getElem?_eq_getElem hlt
    refine ⟨recs.set i (burnRecord e recs[i]), ?_, hrep.burnAt hi, fun j => ?_⟩
    · rw [UserCall.run, hflat, userdbBurnAt_flat (by decide) hi, List.append_nil]
    · simp only [UserCall.rewrites, recordSize_inj]
      rw [List.getElem?_set]
      by_cases hj : i = j
      · subst hj
        rw [if_pos rfl, if_pos hlt, if_pos rfl, hi, Option.map_some]
      · rw [if_neg hj, if_neg (Ne.symm hj)]
  | resetRound money =>
    refine ⟨recs.map (resetRecord e money), ?_, hrep.resetRound, fun i => List.getElem?_map⟩
    rw [UserCall.run, hflat, userdbResetRound_flat (by decide), List.append_nil]

/-- At every point of a legal run the file is a map. -/
theorem represents_of_legal (h : Along (Legal e) calls) : ∀ before, before <+: calls →
    ∃ recs, fileAfter e before = flat recs ∧ Represents recs (mapAfter e before) := by
  induction calls using List.reverseRecOn with
  | nil =>
    intro before hpart
    obtain rfl := List.prefix_nil.1 hpart
    exact ⟨[], rfl, rfl, by simp [mapAfter], by simp⟩
  | append_singleton calls call ih =>
    obtain ⟨hcalls, hlegal⟩ := along_concat.1 h
    intro before hpart
    rcases List.prefix_concat_iff.1 hpart with rfl | hpart
    · obtain ⟨recs, hfile, hrep⟩ := ih hcalls calls List.prefix_rfl
      obtain ⟨recs', hfile', hrep', -⟩ := represents_call hfile hrep hlegal fun off =>
        index_of_returned (ih hcalls)
      exact ⟨recs', hfile', hrep'⟩
    · exact ih hcalls before hpart

theorem readRecord_of_flat (h : f = flat recs) (i : ℕ) :
    readRecord recordSize f (recordSize * i) = recs[i]? := by
  rw [h, ← List.append_nil (flat recs), readRecord_flat (by decide)]

/-- The offset of a key stays when a call is made. -/
theorem entry_apply {k : Bytes} (hk : m.entry k = some (rec, off))
    (hnew : ∀ new, call = .append new → nameOf new ≠ k) :
    ∃ rec', (call.apply e m).entry k = some (rec', off) := by
  cases call with
  | append new =>
    refine ⟨rec, ?_⟩
    simp only [UserCall.apply]
    rw [if_neg fun hsame => hnew new rfl hsame.symm, hk]
  | updateAt offset new =>
    simp only [UserCall.apply, hk, Option.map_some]
    split_ifs <;> exact ⟨_, rfl⟩
  | burnAt offset =>
    simp only [UserCall.apply, hk, Option.map_some]
    split_ifs <;> exact ⟨_, rfl⟩
  | resetRound money =>
    simp only [UserCall.apply, hk, Option.map_some]
    exact ⟨_, rfl⟩

/-- The offset of a key stays for ever. -/
theorem entry_stays (h : Along (Legal e) calls) {before : List UserCall} (hpart : before <+: calls)
    {k : Bytes} (hk : (mapAfter e before).entry k = some (rec, off)) :
    ∃ rec', (mapAfter e calls).entry k = some (rec', off) := by
  induction calls using List.reverseRecOn with
  | nil =>
    obtain rfl := List.prefix_nil.1 hpart
    exact ⟨rec, hk⟩
  | append_singleton calls call ih =>
    obtain ⟨hcalls, hlegal⟩ := along_concat.1 h
    rcases List.prefix_concat_iff.1 hpart with rfl | hpart
    · exact ⟨rec, hk⟩
    · obtain ⟨rec', hrec'⟩ := ih hcalls hpart
      rw [mapAfter_concat]
      refine entry_apply hrec' ?_
      -- a key that has an entry was appended before, so it is not appended again
      rintro new rfl hsame
      have hnone := (entry_eq_none (e := e) calls (nameOf new)).2 hlegal
      rw [hsame, hrec'] at hnone
      cases hnone

/-- **`users.dat` is a map** from keys to records, after any calls the database is used with. -/
theorem userFile_isMap (h : Along (Legal e) calls) : IsMap e calls := by
  obtain ⟨recs, hfile, hrep⟩ := represents_of_legal h calls List.prefix_rfl
  have hfind : ∀ before, before <+: calls → ∀ key,
      userdbFind (fileAfter e before) key = (mapAfter e before).entry (keyName key) := by
    intro before hpart key
    obtain ⟨old, hold, hrepOld⟩ := represents_of_legal h before hpart
    rw [hold, hrepOld.find]
  refine ⟨hfind calls List.prefix_rfl, fun key => ?_, ?_, ?_, fun rec => refilled_withMoney ..,
    fun money rec => ?_, ?_, ?_⟩
  · rw [hfind calls List.prefix_rfl, entry_eq_none]
  · intro before hpart key rec off hk
    rw [hfind before hpart] at hk
    obtain ⟨rec', hrec'⟩ := entry_stays h hpart hk
    exact ⟨rec', by rw [hfind calls List.prefix_rfl, hrec']⟩
  · intro before call hpart i
    have hbefore : before <+: calls := (List.prefix_append before [call]).trans hpart
    obtain ⟨old, hold, hrepOld⟩ := represents_of_legal h before hbefore
    obtain ⟨rest, rfl⟩ := hpart
    have hlegal : Legal e before call := h before call rest (by simp)
    obtain ⟨new, hnew, -, hchanges⟩ := represents_call hold hrepOld hlegal fun off =>
      index_of_returned fun pre hpre => represents_of_legal h pre (hpre.trans hbefore)
    rw [readRecord_of_flat hnew, readRecord_of_flat hold, hchanges, hrepOld.count_eq]
  · constructor
    · intro hburned
      rw [resetRecord, if_neg (not_not.2 hburned)]
    · intro halive
      rw [resetRecord, if_pos halive]
      exact refilled_withMoney ..
  · rw [hfile, flat_length, hrep.count_eq]
  · intro i j r r' hr hr'
    rw [readRecord_of_flat hfile] at hr hr'
    exact hrep.distinct i j r r' hr hr'

/-- A record of the key `a` with no money. -/
def firstRecord : RawRecord := Vector.ofFn fun i => if i.val = 0 then 97 else 0

/-- A user is appended, burned, and skipped by a reset. -/
theorem userFile_isMap_first :
    IsMap .little [.append firstRecord, .burnAt 0, .resetRound 1000] := by
  refine userFile_isMap ?_
  have hfirst : Along (Legal .little) ([] ++ [.append firstRecord]) :=
    along_concat.2 ⟨along_nil, by simp [Legal]⟩
  have hburn : Along (Legal .little) ([.append firstRecord] ++ [.burnAt 0]) :=
    along_concat.2 ⟨hfirst, [], [.append firstRecord], rfl, .inl ⟨firstRecord, [], rfl, rfl⟩⟩
  have hreset : Legal .little ([.append firstRecord] ++ [.burnAt 0]) (.resetRound 1000) := trivial
  exact along_concat.2 ⟨hburn, hreset⟩

end UserFile

end UnderFlow
