import UnderFlow.Common.Protocol

/-!
# The user database

`userdb/userdb.c`, record by record: `users.dat` is the list of its records, and an offset counts
records.  Each function is one critical section of `g_userdb_mutex`.

* `userdbFind_eq_some` : a lookup finds the first record of the key.
* `userdbFind_append`, `userdbFind_set` : what appending and rewriting a record do to lookups.
* `balanceOf` : the balance a lookup of the key finds.
-/

namespace UnderFlow

/-- `UserRecord`: the account of a key. -/
structure UserRecord where
  /-- `key`. -/
  key : Key
  /-- `money`: the balance, or the marker `-1`. -/
  money : ℤ := 0
  /-- `inventory_count`. -/
  inventoryCount : ℤ := 0
  /-- `inventory_doc_ids`. -/
  inventoryDocIds : Vector ℤ maxInvenSize := Vector.replicate maxInvenSize 0
  deriving DecidableEq

/-- The records of `users.dat`. -/
abbrev UserDb := List UserRecord

/-- The scan of `userdb_find`, with the offset of the first record. -/
def userdbScan (key : Key) : ℕ → UserDb → Option (UserRecord × ℕ)
  | _, [] => none
  | offset, rec :: db =>
    if rec.key = key then some (rec, offset) else userdbScan key (offset + 1) db

/-- `userdb_find`: the first record of a key, with its place. -/
def userdbFind (db : UserDb) (key : Key) : Option (UserRecord × ℕ) := userdbScan key 0 db

/-- `userdb_append`. -/
def userdbAppend (db : UserDb) (rec : UserRecord) : UserDb × ℕ := (db ++ [rec], db.length)

/-- `userdb_update_at`. -/
def userdbUpdateAt (db : UserDb) (offset : ℕ) (rec : UserRecord) : UserDb := db.set offset rec

/-- The record `userdb_burn_at` writes back. -/
def UserRecord.burn (rec : UserRecord) : UserRecord :=
  { rec with
    money := -1
    inventoryCount := 0
    inventoryDocIds := Vector.replicate maxInvenSize 0 }

/-- `userdb_burn_at`. -/
def userdbBurnAt (db : UserDb) (offset : ℕ) : UserDb := db.modify offset UserRecord.burn

/-- `userdb_is_burned`. -/
def userdbIsBurned (rec : UserRecord) : Bool := rec.money == -1

/-- What `userdb_reset_round` does to one record. -/
def UserRecord.reset (money : ℤ) (rec : UserRecord) : UserRecord :=
  if rec.money ≠ -1 then
    { rec with
      money := money
      inventoryCount := 0
      inventoryDocIds := Vector.replicate maxInvenSize 0 }
  else rec

/-- `userdb_reset_round`. -/
def userdbResetRound (db : UserDb) (money : ℤ) : UserDb := db.map (UserRecord.reset money)

/-- The key of the record at an offset. -/
def keyAt (db : UserDb) (offset : ℕ) : Option Key := db[offset]?.map UserRecord.key

variable {db : UserDb} {key : Key} {rec rec' : UserRecord} {o o' : ℕ} {money : ℤ}

@[simp] theorem burn_money : rec.burn.money = -1 := rfl

@[simp] theorem burn_key : rec.burn.key = rec.key := rfl

@[simp] theorem reset_key : (rec.reset money).key = rec.key := by
  unfold UserRecord.reset; split_ifs <;> rfl

theorem keyAt_eq_some : keyAt db o = some key ↔ ∃ rec, db[o]? = some rec ∧ rec.key = key :=
  Option.map_eq_some_iff

theorem keyAt_set (h : keyAt db o = some rec.key) (i : ℕ) :
    keyAt (db.set o rec) i = keyAt db i := by
  rw [keyAt, List.getElem?_set]
  split_ifs with hi hlt
  · rw [← hi, h, Option.map_some]
  · rw [keyAt, ← hi, List.getElem?_eq_none (not_lt.1 hlt)]
  · rfl

@[simp] theorem keyAt_burnAt (i : ℕ) : keyAt (userdbBurnAt db o) i = keyAt db i := by
  rw [keyAt, keyAt, userdbBurnAt, List.getElem?_modify]
  cases db[i]? with
  | none => rfl
  | some r => by_cases hi : o = i <;> simp [hi]

@[simp] theorem keyAt_resetRound (i : ℕ) : keyAt (userdbResetRound db money) i = keyAt db i := by
  rw [keyAt, keyAt, userdbResetRound, List.getElem?_map]
  cases db[i]? with
  | none => rfl
  | some r => simp

theorem keyAt_append (h : keyAt db o = some key) : keyAt (db ++ [rec]) o = some key := by
  obtain ⟨r, hr, hk⟩ := keyAt_eq_some.1 h
  rw [keyAt, List.getElem?_append_left (List.getElem?_eq_some_iff.1 hr).1]
  exact keyAt_eq_some.2 ⟨r, hr, hk⟩

theorem reset_of_burned (h : rec.money = -1) : rec.reset money = rec := by
  simp [UserRecord.reset, h]

theorem userdbScan_eq_some : userdbScan key o db = some (rec, o') ↔
    ∃ i, o' = o + i ∧ db[i]? = some rec ∧ rec.key = key ∧
      ∀ j < i, ∀ r, db[j]? = some r → r.key ≠ key := by
  induction db generalizing o with
  | nil => simp [userdbScan]
  | cons r db ih =>
    by_cases hr : r.key = key
    · simp only [userdbScan, hr, ↓reduceIte, Option.some.injEq, Prod.mk.injEq]
      constructor
      · rintro ⟨rfl, rfl⟩
        exact ⟨0, rfl, rfl, hr, by simp⟩
      · rintro ⟨i, rfl, hi, -, hlt⟩
        cases i with
        | zero => exact ⟨by simpa using hi, rfl⟩
        | succ i => exact absurd hr (hlt 0 (Nat.succ_pos i) r rfl)
    · simp only [userdbScan, hr, ↓reduceIte, ih]
      constructor
      · rintro ⟨i, rfl, hi, hk, hlt⟩
        refine ⟨i + 1, by omega, hi, hk, fun j hj r' hr' => ?_⟩
        cases j with
        | zero => cases hr'; exact hr
        | succ j => exact hlt j (by omega) r' hr'
      · rintro ⟨i, rfl, hi, hk, hlt⟩
        cases i with
        | zero => cases hi; exact absurd hk hr
        | succ i =>
          exact ⟨i, by omega, hi, hk, fun j hj r' hr' => hlt (j + 1) (by omega) r' hr'⟩

/-- A lookup finds the first record of the key. -/
theorem userdbFind_eq_some : userdbFind db key = some (rec, o) ↔
    db[o]? = some rec ∧ rec.key = key ∧ ∀ j < o, ∀ r, db[j]? = some r → r.key ≠ key := by
  simp [userdbFind, userdbScan_eq_some]

theorem userdbFind_eq_none : userdbFind db key = none ↔ ∀ r ∈ db, r.key ≠ key := by
  have h : ∀ o, userdbScan key o db = none ↔ ∀ r ∈ db, r.key ≠ key := by
    induction db with
    | nil => simp [userdbScan]
    | cons r db ih =>
      intro o
      by_cases hr : r.key = key <;> simp [userdbScan, hr, ih]
  exact h 0

/-- The first record of a key stays the first one as long as the keys at the offsets up to it
stay. -/
theorem userdbFind_congr {db' : UserDb} (h : userdbFind db key = some (rec, o))
    (hkey : ∀ j ≤ o, keyAt db' j = keyAt db j) :
    ∃ rec', userdbFind db' key = some (rec', o) := by
  obtain ⟨ho, hk, hlt⟩ := userdbFind_eq_some.1 h
  have ho' := hkey o le_rfl
  rw [keyAt, keyAt, ho] at ho'
  obtain ⟨rec', hrec', hk'⟩ := Option.map_eq_some_iff.1 ho'
  refine ⟨rec', userdbFind_eq_some.2 ⟨hrec', hk'.trans hk, fun j hj r hr => ?_⟩⟩
  have hj' := hkey j hj.le
  rw [keyAt, keyAt, hr] at hj'
  obtain ⟨r', hr', hkr⟩ := Option.map_eq_some_iff.1 hj'.symm
  exact fun hrk => hlt j hj r' hr' (Eq.trans hkr hrk)

/-- A record appended at the end is found only if no other record has its key. -/
theorem userdbFind_append : userdbFind (db ++ [rec]) key =
    (userdbFind db key).or (if rec.key = key then some (rec, db.length) else none) := by
  have h : ∀ o, userdbScan key o (db ++ [rec]) =
      (userdbScan key o db).or (if rec.key = key then some (rec, o + db.length) else none) := by
    induction db with
    | nil => simp [userdbScan]
    | cons r db ih =>
      intro o
      by_cases hr : r.key = key
      · simp [userdbScan, hr]
      · simp [userdbScan, hr, ih, Nat.add_comm, Nat.add_left_comm]
  rw [userdbFind, h 0, Nat.zero_add, userdbFind]

/-- A rewritten record is found where it was found. -/
theorem userdbFind_set (h : userdbFind db key = some (rec, o)) (hkey : rec'.key = key) :
    userdbFind (db.set o rec') key = some (rec', o) := by
  obtain ⟨ho, -, hlt⟩ := userdbFind_eq_some.1 h
  refine userdbFind_eq_some.2 ⟨?_, hkey, fun j hj r hr => ?_⟩
  · rw [List.getElem?_set_self (List.getElem?_eq_some_iff.1 ho).1]
  · rw [List.getElem?_set_ne hj.ne'] at hr
    exact hlt j hj r hr

/-- The lookup of another key does not see the rewritten record. -/
theorem userdbFind_set_of_ne (h : keyAt db o = some rec.key) (hne : rec.key ≠ key) :
    userdbFind (db.set o rec) key = userdbFind db key := by
  obtain ⟨old, hold, hkey⟩ := keyAt_eq_some.1 h
  have hlt : o < db.length := (List.getElem?_eq_some_iff.1 hold).1
  have hiff : ∀ (j : ℕ) (r : UserRecord), r.key = key →
    ((db.set o rec)[j]? = some r ↔ db[j]? = some r) := by
    intro j r hr
    by_cases hj : j = o
    · subst hj
      rw [List.getElem?_set_self hlt, hold]
      constructor
      · rintro ⟨⟩
        exact absurd hr hne
      · rintro ⟨⟩
        exact absurd (hkey.symm.trans hr) hne
    · rw [List.getElem?_set_ne (Ne.symm hj)]
  refine Option.ext fun x => ?_
  obtain ⟨r, i⟩ := x
  rw [userdbFind_eq_some, userdbFind_eq_some]
  constructor
  · rintro ⟨hi, hr, hno⟩
    exact ⟨(hiff i r hr).1 hi, hr, fun j hj r' hr' hk => hno j hj r' ((hiff j r' hk).2 hr') hk⟩
  · rintro ⟨hi, hr, hno⟩
    exact ⟨(hiff i r hr).2 hi, hr, fun j hj r' hr' hk => hno j hj r' ((hiff j r' hk).1 hr') hk⟩

/-- The balance a lookup of the key finds. -/
def balanceOf (db : UserDb) (key : Key) : Option ℤ := (userdbFind db key).map (·.1.money)

theorem balanceOf_append : balanceOf (db ++ [rec]) key =
    (balanceOf db key).or (if rec.key = key then some rec.money else none) := by
  rw [balanceOf, userdbFind_append, balanceOf]
  cases userdbFind db key with
  | some x => rfl
  | none => by_cases hk : rec.key = key <;> simp [hk]

theorem balanceOf_set (h : userdbFind db key = some (rec, o)) (hkey : rec'.key = key) :
    balanceOf (db.set o rec') key = some rec'.money := by
  rw [balanceOf, userdbFind_set h hkey, Option.map_some]

theorem balanceOf_set_of_ne (h : keyAt db o = some rec.key) (hne : rec.key ≠ key) :
    balanceOf (db.set o rec) key = balanceOf db key := by
  rw [balanceOf, userdbFind_set_of_ne h hne, balanceOf]

theorem balanceOf_eq_none : balanceOf db key = none ↔ ∀ r ∈ db, r.key ≠ key := by
  rw [balanceOf, Option.map_eq_none_iff, userdbFind_eq_none]

end UnderFlow
