import UnderFlow.Server.Records
import UnderFlow.Server.TornAppend

/-!
# Handlers on the bytes of `users.dat`

The commands of a session, with the functions of `userdb.c` on the bytes of the file: a lookup that
fails leaves the local record and offset indeterminate, and a write may be cut off.

* `Op.execFile` : the operations on the bytes.
* `Handling` : one request is handled, operation by operation.
* `find_butRecord` : a key is found at its offset as long as the keys stay.
* `handlesOwn_iff` : a request changes only the record of its session, exactly if no sale goes on
  behind a failed lookup.
-/

namespace UnderFlow

open UserFile

/-! ### The operations -/

/-- What the outside decides, with the number of bytes that a write which fails has accepted. -/
structure FileChoice extends Choice where
  /-- How many bytes a failing write gets into the file. -/
  accepted : ℕ := 0

/-- The shared state with the bytes of `users.dat`. -/
structure Disk where
  /-- The rest of the shared state. -/
  shared : Shared
  /-- The bytes of `users.dat`. -/
  file : ByteFile
  /-- The memory of the record the handler has read; `none` as long as no lookup has succeeded. -/
  mem : Option RawRecord := none

/-- The fields of a record that was found for a key. -/
def decodeRecord (e : ByteOrder) (key : Key) (raw : RawRecord) : UserRecord where
  key := key
  money := (load e moneyOff raw).toInt
  inventoryCount := (load e countOff raw).toInt
  inventoryDocIds := Vector.ofFn fun i => (load e (docIdsOff + 4 * i) raw).toInt

/-- The memory of a record with another amount of money. -/
def setMoney (e : ByteOrder) (money : ℤ) (raw : RawRecord) : RawRecord :=
  store e moneyOff (BitVec.ofInt 32 money) raw

/-- The memory of the record `client_handler` appends: zeros, the key and the money. -/
def newRecord (e : ByteOrder) (rec : UserRecord) : RawRecord :=
  setMoney e rec.money (Vector.ofFn fun i => rec.key.bytes.getD i 0)

/-- `write` of a record at an offset. -/
def FileChoice.write (c : FileChoice) (f : ByteFile) (offset : ℕ) (raw : RawRecord) : ByteFile :=
  writeAt f offset (if c.ok then raw.toList else raw.toList.take c.accepted)

/-- What an indeterminate record and an indeterminate offset hold. -/
abbrev Garbage := RawRecord × ℤ

/-- An operation of a handler of the session `key`; `lseek` refuses a negative offset. -/
def Op.execFile (e : ByteOrder) (key : Key) (g : Garbage) :
    (o : Op) → Disk → FileChoice → Option (Disk × o.Ret)
  | .userdbFind k, d, c =>
    match (if c.ok then UserFile.userdbFind d.file k.bytes else none) with
    | none => some (d, .error c.indeterminate.1)
    | some (raw, off) =>
      some (if k = key then { d with mem := some raw } else d, .ok (decodeRecord e k raw, off))
  | .userdbUpdateAt off rec, d, c =>
    some ({ d with file := c.write d.file off (setMoney e rec.money (d.mem.getD g.1)) },
      if c.ok then (readRecord recordSize d.file off).map (decodeRecord e key) else none)
  | .userdbUpdateIndeterminate, d, _ =>
    some ({ d with file := if 0 ≤ g.2 then UserFile.userdbUpdateAt d.file g.2.toNat g.1
      else d.file }, ())
  | .userdbBurnAt off, d, c =>
    match readRecord recordSize d.file off with
    | none => some (d, false)
    | some raw => some ({ d with file := c.write d.file off (burnRecord e raw) }, c.ok)
  | .userdbAppend rec, d, c =>
    some ({ d with file := c.write d.file d.file.length (newRecord e rec) }, c.ok)
  | .userdbResetRound money, d, c =>
    if c.ok then
      some ({ d with file := UserFile.userdbResetRound e d.file (BitVec.ofInt 32 money) }, true)
    else some (d, false)
  | o, d, c => (o.exec d.shared c.toChoice).map fun x => ({ d with shared := x.1 }, x.2)

/-! ### One request -/

/-- What a session handles: a request, or the check behind some of them by itself. -/
inductive Handled where
  | request (req : Request)
  | bankruptcyCheck

/-- Where the handler starts. -/
def Handled.entry : Handled → Command
  | request req => Command.dispatch req
  | bankruptcyCheck => .bankruptcy .lookup

/-- **Handling a request**: the state after `n` operations, with the outcomes `outcome 0`,
`outcome 1` and so on.  What indeterminate variables hold is arbitrary at each of them. -/
inductive Handling (e : ByteOrder) (sock : ℕ) (key : Key) (shared : Shared) (file : ByteFile)
    (h : Handled) (outcome : ℕ → FileChoice) : ℕ → Disk → Next Command → Prop
  | start : Handling e sock key shared file h outcome 0 ⟨shared, file, none⟩ (.cont h.entry)
  | step {n : ℕ} {d d' : Disk} {pc : Command} {r : (clientLoop sock key pc).op.Ret} (g : Garbage)
      (hrun : Handling e sock key shared file h outcome n d (.cont pc)) (hbusy : pc ≠ .recv)
      (hexec : (clientLoop sock key pc).op.execFile e key g d (outcome n) = some (d', r)) :
      Handling e sock key shared file h outcome (n + 1) d' ((clientLoop sock key pc).next r)

/-- What the handling may leave of the file: no byte is changed but those of the record of the key,
the length stays, and nothing is changed as long as every lookup of the key has failed. -/
structure OwnBytes (key : Key) (file : ByteFile) (d : Disk) : Prop where
  length : d.file.length = file.length
  outside : ∀ i, (∀ raw off, UserFile.userdbFind file key.bytes = some (raw, off) →
    i < off ∨ off + recordSize ≤ i) → d.file[i]? = file[i]?
  unfound : d.mem = none → d.file = file

/-- A request, with some outcomes of its operations, changes only what is its own. -/
def HandlesOwn (e : ByteOrder) (sock : ℕ) (key : Key) (shared : Shared) (file : ByteFile)
    (h : Handled) (outcome : ℕ → FileChoice) : Prop :=
  ∀ n d next, Handling e sock key shared file h outcome n d next → OwnBytes key file d

/-- The lookup of a sale that has taken its order succeeds. -/
def SaleFinds (e : ByteOrder) (sock : ℕ) (key : Key) (shared : Shared) (file : ByteFile)
    (h : Handled) (outcome : ℕ → FileChoice) : Prop :=
  ∀ n d npcId docIds npc sold, Handling e sock key shared file h outcome n d
    (.cont (.sell npcId docIds (.lookup npc sold))) →
      (outcome n).ok = true ∧ UserFile.userdbFind file key.bytes ≠ none

/-! ### The file while a record is rewritten -/

/-- A file in which nothing is changed but a record at an offset, and of that not the key. -/
structure ButRecord (f f' : ByteFile) (off : ℕ) : Prop where
  length : f'.length = f.length
  same : ∀ i, i < off + maxKeyLen ∨ off + recordSize ≤ i → f'[i]? = f[i]?

variable {e : ByteOrder} {sock : ℕ} {key : Key} {shared : Shared}
  {f f' file : ByteFile} {h : Handled}
  {outcome : ℕ → FileChoice} {raw raw' : RawRecord} {off n fuel o : ℕ} {d d' : Disk}
    {c : FileChoice}
  {g : Garbage} {name : Bytes}

theorem ButRecord.refl (f : ByteFile) (off : ℕ) : ButRecord f f off := ⟨rfl, fun _ _ => rfl⟩

/-- The key of a record that is read. -/
theorem keyField_read (h : readRecord recordSize f off = some raw) :
    keyField raw = readAt f off maxKeyLen := by
  have hread := readRecord_eq_some.1 h
  rw [keyField, ← hread, readAt, readAt, List.take_take]
  rfl

theorem readAt_congr {m : ℕ} (h : ∀ i, off ≤ i → i < off + m → f'[i]? = f[i]?) :
    readAt f' off m = readAt f off m := by
  refine List.ext_getElem? fun i => ?_
  rw [readAt, readAt, List.getElem?_take, List.getElem?_take]
  split_ifs with hi
  · rw [List.getElem?_drop, List.getElem?_drop]
    exact h (off + i) (by omega) (by omega)
  · rfl

theorem readRecord_isSome (h : off + recordSize ≤ f.length) :
    ∃ raw, readRecord recordSize f off = some raw := by
  refine ⟨_, dif_pos ?_⟩
  rw [readAt, List.length_take, List.length_drop]
  omega

/-- A lookup finds a record of the key that ends in the file, not before it starts to look. -/
theorem userdbFindFrom_spec (h : userdbFindFrom f name fuel o = some (raw, off)) :
    o ≤ off ∧ readRecord recordSize f off = some raw := by
  induction fuel generalizing o with
  | zero => cases h
  | succ fuel ih =>
    rw [userdbFindFrom] at h
    rcases hread : readRecord recordSize f o with _ | r
    · rw [hread] at h
      cases h
    · simp only [hread] at h
      split_ifs at h
      · cases h
        exact ⟨le_rfl, hread⟩
      · obtain ⟨hle, hfound⟩ := ih h
        exact ⟨by omega, hfound⟩

/-- **A key is found at its offset** as long as nothing but the rest of its record is changed. -/
theorem userdbFindFrom_butRecord (hf : ButRecord f f' off)
    (h : userdbFindFrom f name fuel o = some (raw, off)) :
    ∃ raw', userdbFindFrom f' name fuel o = some (raw', off) ∧ keyField raw' = keyField raw := by
  induction fuel generalizing o with
  | zero => cases h
  | succ fuel ih =>
    rw [userdbFindFrom] at h
    rcases hread : readRecord recordSize f o with _ | r
    · rw [hread] at h
      cases h
    · obtain ⟨r', hread'⟩ : ∃ r', readRecord recordSize f' o = some r' := readRecord_isSome (by
        rw [hf.length]
        exact readRecord_le (by decide) hread)
      simp only [hread] at h
      have hle : o ≤ off := by
        split_ifs at h
        · cases h
          exact le_rfl
        · have := (userdbFindFrom_spec h).1
          omega
      have hkey : keyField r' = keyField r := by
        rw [keyField_read hread', keyField_read hread]
        exact readAt_congr fun i _ hi => hf.same i (.inl (by omega))
      rw [userdbFindFrom, hread']
      simp only [hkey]
      split_ifs at h ⊢ with hname
      · cases h
        exact ⟨r', rfl, hkey⟩
      · exact ih h

theorem find_butRecord (hf : ButRecord f f' off)
    (h : UserFile.userdbFind f name = some (raw, off)) :
    ∃ raw', UserFile.userdbFind f' name = some (raw', off) ∧ keyField raw' = keyField raw := by
  rw [UserFile.userdbFind, hf.length]
  exact userdbFindFrom_butRecord hf h

theorem found_le (h : UserFile.userdbFind f name = some (raw, off)) : off + recordSize ≤ f.length :=
  readRecord_le (by decide) (userdbFindFrom_spec h).2

/-- The bytes of a key at its offset. -/
theorem found_key (h : UserFile.userdbFind f name = some (raw, off)) {i : ℕ} (hi : i < maxKeyLen) :
    f[off + i]? = some (byteAt raw i) := by
  have hlt : i < recordSize := Nat.lt_of_lt_of_le hi (by decide)
  have hread := readRecord_eq_some.1 (userdbFindFrom_spec h).2
  have hbyte : (readAt f off recordSize)[i]? = some (byteAt raw i) := by
    rw [hread, Vector.getElem?_toList, Vector.getElem?_eq_getElem hlt, byteAt_of_lt hlt]
  rwa [readAt, List.getElem?_take_of_lt hlt, List.getElem?_drop] at hbyte

theorem byteAt_of_keyField (hkey : keyField raw' = keyField raw) {i : ℕ} (hi : i < maxKeyLen) :
    byteAt raw' i = byteAt raw i := by
  have hsame := congrArg (fun l : Bytes => l[i]?) hkey
  simp only [keyField, List.getElem?_take_of_lt hi, Vector.getElem?_toList] at hsame
  rw [byteAt, byteAt, hsame]

theorem keyField_congr (h : ∀ i < maxKeyLen, byteAt raw' i = byteAt raw i) :
    keyField raw' = keyField raw := by
  refine List.ext_getElem? fun i => ?_
  rw [keyField, keyField, List.getElem?_take, List.getElem?_take]
  split_ifs with hi
  · have hlt : i < recordSize := Nat.lt_of_lt_of_le hi (by decide)
    have hbyte := h i hi
    rw [byteAt_of_lt hlt, byteAt_of_lt hlt] at hbyte
    simpa [hlt] using hbyte
  · rfl

/-- The money is not part of the key. -/
theorem keyField_setMoney (money : ℤ) : keyField (setMoney e money raw) = keyField raw := by
  refine keyField_congr fun i hi => ?_
  rw [setMoney, byteAt_store (by decide), if_neg]
  simp only [moneyOff]
  omega

/-- What a write of a record accepts. -/
def FileChoice.written (c : FileChoice) (raw : RawRecord) : List UInt8 :=
  if c.ok then raw.toList else raw.toList.take c.accepted

theorem written_length_le (c : FileChoice) (raw : RawRecord) :
    (c.written raw).length ≤ recordSize := by
  unfold FileChoice.written
  split_ifs
  · rw [Vector.length_toList]
  · rw [List.length_take, Vector.length_toList]
    exact Nat.min_le_right _ _

theorem written_get {i : ℕ} (hi : i < (c.written raw).length) :
    (c.written raw)[i]? = some (byteAt raw i) := by
  have hlt : i < recordSize := Nat.lt_of_lt_of_le hi (written_length_le c raw)
  have hwhole : raw.toList[i]? = some (byteAt raw i) := by
    rw [Vector.getElem?_toList, Vector.getElem?_eq_getElem hlt, byteAt_of_lt hlt]
  unfold FileChoice.written at hi ⊢
  split_ifs at hi ⊢
  · exact hwhole
  · rw [List.length_take] at hi
    rwa [List.getElem?_take_of_lt (by omega)]

/-- **Rewriting a record under its key** keeps the file framed, also when the write is cut off. -/
theorem ButRecord.write {old : RawRecord} (hf : ButRecord f f' off)
    (hfind : UserFile.userdbFind f name = some (old, off)) (hkey : keyField raw = keyField old) :
    ButRecord f (c.write f' off raw) off := by
  have hlen := written_length_le c raw
  have hend : off + (c.written raw).length ≤ f'.length := by
    have := found_le hfind
    rw [hf.length]
    omega
  refine ⟨(writeAt_length hend).trans hf.length, fun i hi => ?_⟩
  show (writeAt f' off (c.written raw))[i]? = _
  rw [getElem?_writeAt hend]
  split_ifs with hin
  · obtain ⟨j, rfl⟩ := Nat.exists_eq_add_of_le hin.1
    have hj : j < maxKeyLen := by omega
    rw [Nat.add_sub_cancel_left, written_get (by omega),
      found_key hfind hj, byteAt_of_keyField hkey hj]
  · exact hf.same i hi

/-! ### The offsets of a command -/

/-- The offset a bankruptcy check works with. -/
def Bankruptcy.offset : Bankruptcy → Option ℕ
  | .count off | .burn off => some off
  | _ => none

/-- The offset a burn works with. -/
def Burn.offset : Burn → Option ℕ
  | .burn off => some off
  | _ => none

/-- The offset the burn of a wrong passcode works with. -/
def Minigame.offset : Minigame → Option ℕ
  | .burn _ pc => pc.offset
  | _ => none

/-- The offset a command is going to write at. -/
def Command.offset : Command → Option ℕ
  | .bankruptcy pc => pc.offset
  | .minigame _ pc => pc.offset
  | pc => pc.copy.map Prod.snd

/-- A lookup of the key hands out an offset of some kind. -/
def Op.Yields (key : Key) (P : ℕ → Prop) : (o : Op) → o.Ret → Prop
  | .userdbFind k, .ok (_, off) => k = key → P off
  | _, _ => True

/-- What an operation may write of the database: a record at an offset of some kind. -/
def Op.WritesAt (P : ℕ → Prop) : Op → Prop
  | .userdbUpdateAt off _ | .userdbBurnAt off => P off
  | .userdbAppend _ | .userdbResetRound _ | .userdbUpdateIndeterminate => False
  | _ => True

/-- An offset that is kept is of some kind. -/
def OffsetIn (P : ℕ → Prop) (o : Option ℕ) : Prop := ∀ off, o = some off → P off

section

variable {P : ℕ → Prop}

theorem offsetIn_none : OffsetIn P none := fun _ h => nomatch h

theorem handleBuy_offset {docId : ℤ} {q q' : Buy} {r : (handleBuy sock key docId q).op.Ret}
    (hy : Op.Yields key P _ r) (hq : OffsetIn P (q.copy.map Prod.snd))
    (hn : (handleBuy sock key docId q).next r = .cont q') : OffsetIn P (q'.copy.map Prod.snd) := by
  cases q with
  | find | count slot =>
    simp only [handleBuy] at hn
    split at hn <;> (try split_ifs at hn) <;> cases hn <;> exact offsetIn_none
  | lookup slot =>
    rcases r with rec | ⟨rec, off⟩
    · cases hn
    · simp only [handleBuy] at hn
      split_ifs at hn
      cases hn
      rintro x ⟨⟩
      exact hy rfl
  | take rec off =>
    simp only [handleBuy] at hn
    split at hn <;> cases hn
    exact hq
  | stat slot rec off | move slot rec off =>
    simp only [handleBuy] at hn
    split_ifs at hn <;> cases hn
    · exact hq
    · exact offsetIn_none
  | charge slot rec off | reply slot rec => cases hn; exact offsetIn_none
  | rollback slot | announce => cases hn

theorem handleSell_offset {n : ℤ} {ds : List ℤ} {q q' : Sell}
    {r : (handleSell sock key n ds q).op.Ret}
    (hy : Op.Yields key P _ r) (hn : (handleSell sock key n ds q).next r = .cont q') :
    OffsetIn P (q'.copy.map Prod.snd) := by
  cases q with
  | findNpc | frozen npc df todo u =>
    simp only [handleSell] at hn
    split at hn
    · cases hn
    · rw [check_copy hn.symm]
      exact offsetIn_none
  | has npc d todo u | read npc d todo u =>
    simp only [handleSell] at hn
    split at hn <;> cases hn
    exact offsetIn_none
  | take =>
    simp only [handleSell] at hn
    split at hn <;> cases hn
    rw [disposeNext_copy]
    exact offsetIn_none
  | dispose npc d todo sold =>
    cases hn
    rw [disposeNext_copy]
    exact offsetIn_none
  | lookup npc sold =>
    rcases r with rec | ⟨rec, off⟩ <;> cases hn
    · exact offsetIn_none
    · rintro x ⟨⟩
      exact hy rfl
  | announce => cases hn
  | _ => cases hn; exact offsetIn_none

theorem handleRumor_offset {target : Key} {q q' : Rumoring}
    {r : (handleRumor sock key target q).op.Ret}
    (hy : Op.Yields key P _ r) (hn : (handleRumor sock key target q).next r = .cont q') :
    OffsetIn P (q'.copy.map Prod.snd) := by
  cases q with
  | enter =>
    simp only [handleRumor] at hn
    split at hn <;> cases hn
    exact offsetIn_none
  | lookup now =>
    rcases r with rec | ⟨rec, off⟩
    · cases hn
      exact offsetIn_none
    · simp only [handleRumor] at hn
      split_ifs at hn <;> cases hn
      · exact offsetIn_none
      · rintro x ⟨⟩
        exact hy rfl
  | leave code reason => cases hn
  | inventory q =>
    simp only [handleRumor, Action.map] at hn
    split at hn <;> cases hn
    exact offsetIn_none
  | _ => cases hn; exact offsetIn_none

theorem handleFakeRich_offset {q q' : FakeRich} {r : (handleFakeRich sock key q).op.Ret}
    (hy : Op.Yields key P _ r) (hq : OffsetIn P (q.copy.map Prod.snd))
    (hn : (handleFakeRich sock key q).next r = .cont q') : OffsetIn P (q'.copy.map Prod.snd) := by
  cases q with
  | lookup =>
    rcases r with rec | ⟨rec, off⟩ <;> cases hn
    rintro x ⟨⟩
    exact hy rfl
  | goal rec off => cases hn; exact hq
  | list rec q =>
    simp only [handleFakeRich, Action.map] at hn
    split at hn <;> cases hn <;> exact offsetIn_none
  | note rec => cases hn
  | _ => cases hn; exact offsetIn_none

theorem handlePayoff_offset {q q' : Payoff} {r : (handlePayoff sock key q).op.Ret}
    (hy : Op.Yields key P _ r) (hq : OffsetIn P (q.copy.map Prod.snd))
    (hn : (handlePayoff sock key q).next r = .cont q') : OffsetIn P (q'.copy.map Prod.snd) := by
  cases q with
  | lookup =>
    rcases r with rec | ⟨rec, off⟩ <;> cases hn
    rintro x ⟨⟩
    exact hy rfl
  | commit rec off =>
    simp only [handlePayoff] at hn
    split at hn <;> cases hn
    exact hq
  | purge e rec off q =>
    simp only [handlePayoff, Action.map] at hn
    split at hn <;> cases hn <;> exact hq
  | goalUpdate e =>
    simp only [handlePayoff] at hn
    split_ifs at hn
    cases hn
    exact offsetIn_none
  | roundEnd q =>
    simp only [handlePayoff, Action.map] at hn
    split at hn <;> cases hn
    exact offsetIn_none
  | _ => cases hn; exact offsetIn_none

theorem checkBankruptcy_offset {q q' : Bankruptcy} {r : (checkBankruptcy sock key q).op.Ret}
    (hy : Op.Yields key P _ r) (hq : OffsetIn P q.offset)
    (hn : (checkBankruptcy sock key q).next r = .cont q') : OffsetIn P q'.offset := by
  cases q with
  | lookup =>
    rcases r with rec | ⟨rec, off⟩
    · cases hn
    · simp only [checkBankruptcy] at hn
      split_ifs at hn
      cases hn
      rintro x ⟨⟩
      exact hy rfl
  | count off =>
    simp only [checkBankruptcy] at hn
    split at hn <;> (try split_ifs at hn) <;> cases hn
    exact hq
  | burn off => cases hn; exact offsetIn_none
  | send => cases hn

theorem burnUserByKey_offset {q q' : Burn} {r : (burnUserByKey key q).op.Ret}
    (hy : Op.Yields key P _ r) (hn : (burnUserByKey key q).next r = .cont q') :
    OffsetIn P q'.offset := by
  cases q with
  | lookup =>
    rcases r with rec | ⟨rec, off⟩ <;> cases hn
    · exact offsetIn_none
    · rintro x ⟨⟩
      exact hy rfl
  | purge q =>
    simp only [burnUserByKey, Action.map] at hn
    split at hn <;> cases hn <;> exact offsetIn_none
  | burn off => cases hn; exact offsetIn_none
  | notify => cases hn

theorem handleMinigameSubmit_offset {code : Bytes} {q q' : Minigame}
    {r : (handleMinigameSubmit sock key code q).op.Ret} (hy : Op.Yields key P _ r)
    (hn : (handleMinigameSubmit sock key code q).next r = .cont q') : OffsetIn P q'.offset := by
  cases q with
  | lookup =>
    simp only [handleMinigameSubmit] at hn
    split at hn <;> (try split_ifs at hn) <;> cases hn <;> exact offsetIn_none
  | burn serial q =>
    simp only [handleMinigameSubmit, Action.map] at hn
    split at hn <;> cases hn
    rename_i q' hq'
    exact burnUserByKey_offset (q := q) hy hq'
  | reply serial => cases hn
  | _ => cases hn; exact offsetIn_none

/-- Where a handler goes on has an offset only if the handler goes on with it. -/
theorem resume_offset {α : Type} {f : α → Command} {check : Bool} {x : Next α} {pc' : Command}
    (h : Command.resume f check x = .cont pc')
    (hf : ∀ q, x = .cont q → OffsetIn P (f q).offset) : OffsetIn P pc'.offset := by
  cases x with
  | cont q => cases h; exact hf q rfl
  | ret b =>
    cases h
    split_ifs <;> exact offsetIn_none
  | fail code reason => cases h; exact offsetIn_none

/-- **The offset a command is going to write at** was kept before, or has just been handed out. -/
theorem clientLoop_offset {pc pc' : Command} {r : (clientLoop sock key pc).op.Ret}
    (hbusy : pc ≠ .recv) (hy : Op.Yields key P _ r) (hpc : OffsetIn P pc.offset)
    (hn : (clientLoop sock key pc).next r = .cont pc') : OffsetIn P pc'.offset := by
  cases pc with
  | recv => exact absurd rfl hbusy
  | error code reason check =>
    cases hn
    split_ifs <;> exact offsetIn_none
  | chat text => cases hn; exact offsetIn_none
  | bankruptcy q =>
    simp only [clientLoop, Action.map] at hn
    split at hn <;> cases hn
    · rename_i q' hq'
      exact checkBankruptcy_offset (q := q) hy hpc hq'
    · exact offsetIn_none
    · exact offsetIn_none
  | leak q =>
    simp only [clientLoop, Action.map] at hn
    split at hn <;> cases hn <;> exact offsetIn_none
  | buy d q => exact resume_offset hn fun q' hq' => handleBuy_offset (q := q) hy hpc hq'
  | sell n ds q => exact resume_offset hn fun q' hq' => handleSell_offset (q := q) hy hq'
  | rumor k q => exact resume_offset hn fun q' hq' => handleRumor_offset (q := q) hy hq'
  | payoff q => exact resume_offset hn fun q' hq' => handlePayoff_offset (q := q) hy hpc hq'
  | fakeRich q => exact resume_offset hn fun q' hq' => handleFakeRich_offset (q := q) hy hpc hq'
  | minigame code q => exact resume_offset hn fun q' hq' =>
    handleMinigameSubmit_offset (q := q) hy hq'
  | dispose d q | inventory q | selfRaid q | endround q =>
    exact resume_offset hn fun q' _ => offsetIn_none

/-! ### What a command writes -/

theorem writesAt_of_store {o : Op} (h : o.store ≠ some .users) : o.WritesAt P := by
  cases o <;> first | exact trivial | exact absurd rfl h

theorem writesAt_of_within {β : Type} {a : Action β} {l : List Store} {fd : Option ℕ}
    (h : a.Within l fd) (hl : Store.users ∉ l) : a.op.WritesAt P := writesAt_of_store (h.store_ne hl)

theorem burnUserByKey_writes {q : Burn} (hq : OffsetIn P q.offset) :
    (burnUserByKey key q).op.WritesAt P := by
  cases q with
  | burn off => exact hq off rfl
  | purge q => exact writesAt_of_within (purgeDocsIn_within (.user key) q) (by simp)
  | lookup | notify => exact trivial

/-- The sale that goes on behind a failed lookup. -/
def Command.indeterminate (pc : Command) : Prop :=
  ∃ npcId docIds npc sold rec, pc = .sell npcId docIds (.creditIndeterminate npc sold rec)

/-- **A command writes a record at the offset it keeps**, or it is a sale behind a failed lookup. -/
theorem clientLoop_writes {pc : Command} (hpc : OffsetIn P pc.offset) (hdet : ¬ pc.indeterminate) :
    (clientLoop sock key pc).op.WritesAt P := by
  cases pc with
  | bankruptcy q =>
    cases q with
    | burn off => exact hpc off rfl
    | lookup | count off | send => exact trivial
  | buy d q =>
    cases q with
    | charge slot rec off => exact hpc off rfl
    | _ => exact trivial
  | sell n ds q =>
    cases q with
    | credit npc sold rec off => exact hpc off rfl
    | creditIndeterminate npc sold rec => exact absurd ⟨n, ds, npc, sold, rec, rfl⟩ hdet
    | _ => exact trivial
  | rumor k q =>
    cases q with
    | update now rec off => exact hpc off rfl
    | inventory q => exact writesAt_of_within (handleInventory_within sock key q) (by simp)
    | _ => exact trivial
  | payoff q =>
    cases q with
    | update e rec off => exact hpc off rfl
    | purge e rec off q => exact writesAt_of_within (purgeDocsIn_within (.user key) q) (by simp)
    | roundEnd q => exact writesAt_of_within (fireRoundEndCountdown_within _ q) (by simp)
    | _ => exact trivial
  | fakeRich q =>
    cases q with
    | update rec off => exact hpc off rfl
    | list rec q => exact writesAt_of_within (sandboxList_within key q) (by simp)
    | _ => exact trivial
  | minigame code q =>
    cases q with
    | burn serial q => exact burnUserByKey_writes hpc
    | _ => exact trivial
  | dispose d q => exact writesAt_of_within (handleDispose_within sock key d q) (by simp)
  | inventory q => exact writesAt_of_within (handleInventory_within sock key q) (by simp)
  | selfRaid q => exact writesAt_of_within (fireSelfPoliceRaid_within sock key q) (by simp)
  | leak q => exact writesAt_of_within (firePublicLeak_within q) (by simp)
  | endround q => exact writesAt_of_within (fireRoundEndCountdown_within _ q) (by simp)
  | recv | error code reason check | chat text => exact trivial

end

/-! ### What an operation leaves of the file -/

/-- The file and the memory of the handler, as long as nothing went wrong. -/
structure FileKept (key : Key) (file : ByteFile) (d : Disk) : Prop where
  butRecord : ∀ old off, UserFile.userdbFind file key.bytes = some (old, off) →
    ButRecord file d.file off
  absent : UserFile.userdbFind file key.bytes = none → d.file = file
  unfound : d.mem = none → d.file = file
  mem : ∀ raw, d.mem = some raw → ∃ old off,
    UserFile.userdbFind file key.bytes = some (old, off) ∧ keyField raw = keyField old

/-- The offset of the key, once it was found. -/
def FoundAt (key : Key) (file : ByteFile) (d : Disk) (off : ℕ) : Prop :=
  (∃ old, UserFile.userdbFind file key.bytes = some (old, off)) ∧ d.mem ≠ none

/-- A lookup of a file that is kept. -/
theorem FileKept.find (hk : FileKept key file d)
    (hf : UserFile.userdbFind d.file key.bytes = some (raw, off)) :
    ∃ old, UserFile.userdbFind file key.bytes = some (old, off) ∧ keyField raw = keyField old := by
  rcases hfile : UserFile.userdbFind file key.bytes with _ | ⟨old, off₀⟩
  · rw [hk.absent hfile, hfile] at hf
    cases hf
  · obtain ⟨raw', hfind, hkey⟩ := find_butRecord (hk.butRecord old off₀ hfile) hfile
    rw [hfind] at hf
    cases hf
    exact ⟨old, rfl, hkey⟩

/-- A record of the key is rewritten. -/
theorem FileKept.write (hk : FileKept key file d) (hoff : FoundAt key file d off)
    (hkey : ∀ old, UserFile.userdbFind file key.bytes = some (old, off) →
      keyField raw = keyField old) :
    FileKept key file { d with file := c.write d.file off raw } := by
  obtain ⟨⟨old, hfind⟩, hmem⟩ := hoff
  refine ⟨fun old' off' hfind' => ?_, fun hnone => ?_, fun hnone => absurd hnone hmem, hk.mem⟩
  · rw [hfind] at hfind'
    cases hfind'
    exact (hk.butRecord old off hfind).write hfind (hkey old hfind)
  · rw [hfind] at hnone
    cases hnone

theorem FoundAt.mono (h : FoundAt key file d off) (hmem : d.mem ≠ none → d'.mem ≠ none) :
    FoundAt key file d' off := ⟨h.1, hmem h.2⟩

/-- **What an operation leaves of the file**, if it writes a record at most where its key was
found. -/
theorem execFile_kept {o : Op} {r : o.Ret} (hk : FileKept key file d)
    (hw : o.WritesAt (FoundAt key file d)) (h : o.execFile e key g d c = some (d', r)) :
    FileKept key file d' ∧ o.Yields key (FoundAt key file d') r ∧
    (d.mem ≠ none → d'.mem ≠ none) := by
  cases o with
  | userdbFind k =>
    simp only [Op.execFile] at h
    split at h
    · cases h
      exact ⟨hk, trivial, id⟩
    · rename_i raw off hfind
      cases h
      split_ifs at hfind
      split_ifs with hself
      · subst hself
        obtain ⟨old, hold, hkey⟩ := hk.find hfind
        refine ⟨⟨hk.butRecord, hk.absent, nofun, ?_⟩, fun _ => ⟨⟨old, hold⟩, nofun⟩, fun _ => nofun⟩
        rintro raw' ⟨⟩
        exact ⟨old, off, hold, hkey⟩
      · exact ⟨hk, fun hsame => absurd hsame hself, id⟩
  | userdbUpdateAt off rec =>
    cases h
    refine ⟨hk.write hw fun old hold => ?_, trivial, id⟩
    rcases hmem : d.mem with _ | raw
    · exact absurd hmem hw.2
    · obtain ⟨old', off', hold', hkey⟩ := hk.mem raw hmem
      rw [hold] at hold'
      cases hold'
      exact (keyField_setMoney _).trans hkey
  | userdbBurnAt off =>
    simp only [Op.execFile] at h
    split at h
    · cases h
      exact ⟨hk, trivial, id⟩
    · rename_i raw hread
      cases h
      refine ⟨hk.write hw fun old hold => ?_, trivial, id⟩
      obtain ⟨raw', hfind, hkey⟩ := find_butRecord (hk.butRecord old off hold) hold
      have hsame : raw' = raw := by
        have := (userdbFindFrom_spec hfind).2
        rw [hread] at this
        exact (Option.some.inj this).symm
      rw [hsame] at hkey
      exact keyField_withMoney.trans hkey
  | userdbAppend rec | userdbResetRound money | userdbUpdateIndeterminate => exact hw.elim
  | _ =>
    simp only [Op.execFile, Option.map_eq_some_iff] at h
    obtain ⟨x, -, h⟩ := h
    cases h
    exact ⟨⟨hk.butRecord, hk.absent, hk.unfound, hk.mem⟩, trivial, id⟩

/-! ### A whole request -/

/-- A lookup has failed. -/
def Op.Fails : (o : Op) → o.Ret → Prop
  | .userdbFind _, .error _ => True
  | _, _ => False

/-- Where a handler goes on is no sale behind a failed lookup, if it is no sale. -/
theorem resume_determinate {α : Type} {f : α → Command} {check : Bool} {x : Next α} {pc' : Command}
    (h : Command.resume f check x = .cont pc') (hf : ∀ q, ¬ (f q).indeterminate) :
    ¬ pc'.indeterminate := by
  intro hdet
  cases x with
  | cont q =>
    cases h
    exact hf q hdet
  | ret b =>
    cases h
    obtain ⟨n, ds, npc, sold, rec, heq⟩ := hdet
    split_ifs at heq
  | fail code reason =>
    cases h
    obtain ⟨n, ds, npc, sold, rec, heq⟩ := hdet
    cases heq

theorem handleSell_indeterminate {n : ℤ} {ds : List ℤ} {q : Sell} {npc : NPCSlot}
    {sold : List DocFile} {rec : UserRecord} {r : (handleSell sock key n ds q).op.Ret}
    (hn : (handleSell sock key n ds q).next r = .cont (.creditIndeterminate npc sold rec)) :
    q = .lookup npc sold ∧ Op.Fails _ r := by
  have hcheck : ∀ npc' u todo, Sell.check npc' u todo ≠ .cont
    (.creditIndeterminate npc sold rec) := by
    intro npc' u todo
    cases todo with
    | nil =>
      rw [Sell.check]
      split_ifs <;> rintro ⟨⟩
    | cons d todo => rintro ⟨⟩
  have hdispose : ∀ npc' sold' todo,
      (.cont (Sell.disposeNext npc' sold' todo) : Next Sell Unit) ≠
        .cont (.creditIndeterminate npc sold rec) := by
    intro npc' sold' todo
    cases todo <;> rintro ⟨⟩
  cases q with
  | lookup npc' sold' =>
    rcases r with rec' | ⟨rec', off⟩ <;> cases hn
    exact ⟨rfl, trivial⟩
  | findNpc | frozen npc df todo u =>
    simp only [handleSell] at hn
    split at hn
    · cases hn
    · exact (hcheck _ _ _ hn).elim
  | take =>
    simp only [handleSell] at hn
    split at hn
    · cases hn
    · exact (hdispose _ _ _ hn).elim
  | dispose npc d todo sold => exact (hdispose _ _ _ hn).elim
  | has npc d todo u | read npc d todo u =>
    simp only [handleSell] at hn
    split at hn <;> cases hn
  | _ => cases hn

/-- **A sale goes on behind a failed lookup** only from this lookup. -/
theorem clientLoop_indeterminate {pc pc' : Command} {r : (clientLoop sock key pc).op.Ret}
    (hbusy : pc ≠ .recv) (hn : (clientLoop sock key pc).next r = .cont pc')
    (hdet : pc'.indeterminate) :
    ∃ npcId docIds npc sold, pc = .sell npcId docIds (.lookup npc sold) ∧ Op.Fails _ r := by
  have hother : ∀ {α : Type} {f : α → Command} {check : Bool} {x : Next α},
      Command.resume f check x = .cont pc' → (∀ q, ¬ (f q).indeterminate) → False :=
    fun h hf => resume_determinate h hf hdet
  cases pc with
  | recv => exact absurd rfl hbusy
  | error code reason check =>
    cases hn
    obtain ⟨n, ds, npc, sold, rec, heq⟩ := hdet
    split_ifs at heq
  | chat text =>
    cases hn
    obtain ⟨n, ds, npc, sold, rec, heq⟩ := hdet
    cases heq
  | bankruptcy q | leak q =>
    simp only [clientLoop, Action.map] at hn
    obtain ⟨n, ds, npc, sold, rec, rfl⟩ := hdet
    split at hn <;> cases hn
  | sell n ds q =>
    cases hx : (handleSell sock key n ds q).next r with
    | ret b =>
      simp only [clientLoop, Action.map, hx] at hn
      cases hn
      obtain ⟨n, ds, npc, sold, rec, heq⟩ := hdet
      cases heq
    | fail code reason =>
      simp only [clientLoop, Action.map, hx] at hn
      cases hn
      obtain ⟨n, ds, npc, sold, rec, heq⟩ := hdet
      cases heq
    | cont q' =>
      simp only [clientLoop, Action.map, hx] at hn
      cases hn
      obtain ⟨n', ds', npc, sold, rec, heq⟩ := hdet
      cases heq
      obtain ⟨rfl, hfails⟩ := handleSell_indeterminate hx
      exact ⟨n, ds, npc, sold, rfl, hfails⟩
  | buy d q | rumor k q | payoff q | fakeRich q | minigame code q | dispose d q | inventory q
  | selfRaid q | endround q =>
    exact (hother hn fun q => by rintro ⟨_, _, _, _, _, heq⟩; cases heq).elim

theorem fileKept_start : FileKept key file ⟨shared, file, none⟩ :=
  ⟨fun _ off _ => .refl file off, fun _ => rfl, fun _ => rfl, fun _ h => nomatch h⟩

theorem FileKept.ownBytes (hk : FileKept key file d) : OwnBytes key file d := by
  rcases hfind : UserFile.userdbFind file key.bytes with _ | ⟨old, off⟩
  · have hsame := hk.absent hfind
    exact ⟨by rw [hsame], fun i _ => by rw [hsame], hk.unfound⟩
  · have hframed := hk.butRecord old off hfind
    refine ⟨hframed.length, fun i hi => hframed.same i ?_, hk.unfound⟩
    have hkey : maxKeyLen ≤ recordSize := by decide
    rcases hi old off hfind with hlt | hge
    · exact .inl (by omega)
    · exact .inr hge

theorem entry_offset (h : Handled) {P : ℕ → Prop} : OffsetIn P h.entry.offset := by
  rcases h with req | _
  · cases req with
    | chat text =>
      show OffsetIn P (Command.dispatch (.chat text)).offset
      rw [Command.dispatch]
      split_ifs <;> exact offsetIn_none
    | sell npcId count docIds =>
      show OffsetIn P (Command.dispatch (.sell npcId count docIds)).offset
      rw [Command.dispatch]
      split_ifs <;> exact offsetIn_none
    | _ => exact offsetIn_none
  · exact offsetIn_none

theorem entry_determinate (h : Handled) : ¬ h.entry.indeterminate := by
  rintro ⟨n, ds, npc, sold, rec, heq⟩
  rcases h with req | _
  · cases req with
    | chat text =>
      simp only [Handled.entry, Command.dispatch] at heq
      split_ifs at heq
    | sell npcId count docIds =>
      simp only [Handled.entry, Command.dispatch] at heq
      split_ifs at heq
      cases heq
    | _ => cases heq
  · cases heq

/-- A lookup that is made in a file that has the key, and whose calls succeed, does not fail. -/
theorem find_not_fails {k : Key} {r : (Op.userdbFind k).Ret} (hok : c.ok = true)
    (hfind : UserFile.userdbFind d.file k.bytes ≠ none)
    (h : (Op.userdbFind k).execFile e key g d c = some (d', r)) : ¬ Op.Fails _ r := by
  simp only [Op.execFile, hok, if_true] at h
  split at h
  · rename_i hnone
    exact absurd hnone hfind
  · cases h
    exact id

theorem FileKept.find_ne (hk : FileKept key file d)
    (hfind : UserFile.userdbFind file key.bytes ≠ none) :
    UserFile.userdbFind d.file key.bytes ≠ none := by
  obtain ⟨⟨old, off⟩, hold⟩ := Option.ne_none_iff_exists'.1 hfind
  obtain ⟨raw, hraw, -⟩ := find_butRecord (hk.butRecord old off hold) hold
  rw [hraw]
  nofun

/-- **Every point of a request**: the file is kept, and the command keeps only the offset of its
key. -/
theorem handling_kept {next : Next Command} (hsale : SaleFinds e sock key shared file h outcome)
    (hrun : Handling e sock key shared file h outcome n d next) :
    FileKept key file d ∧ ∀ pc, next = .cont pc →
      OffsetIn (FoundAt key file d) pc.offset ∧ ¬ pc.indeterminate := by
  induction hrun with
  | start =>
    refine ⟨fileKept_start, ?_⟩
    rintro pc ⟨⟩
    exact ⟨entry_offset h, entry_determinate h⟩
  | @step n d d' pc r g hrun hbusy hexec ih =>
    obtain ⟨hk, hpc⟩ := ih
    obtain ⟨hoff, hdet⟩ := hpc pc rfl
    obtain ⟨hk', hyields, hmem⟩ := execFile_kept hk (clientLoop_writes hoff hdet) hexec
    refine ⟨hk', fun pc' hnext => ⟨?_, fun hdet' => ?_⟩⟩
    · exact clientLoop_offset hbusy hyields (fun off ho => (hoff off ho).mono hmem) hnext
    · obtain ⟨npcId, docIds, npc, sold, rfl, hfails⟩ := clientLoop_indeterminate hbusy hnext hdet'
      obtain ⟨hok, hfind⟩ := hsale n d npcId docIds npc sold hrun
      exact find_not_fails hok (hk.find_ne hfind) hexec hfails

/-- A file without the key is left alone. -/
theorem OwnBytes.absent (h : OwnBytes key file d)
    (hnone : UserFile.userdbFind file key.bytes = none) : d.file = file := by
  refine List.ext_getElem? fun i => h.outside i fun raw off hfind => ?_
  rw [hnone] at hfind
  cases hfind

/-- **A sale whose lookup fails** may write anything anywhere. -/
theorem saleFinds_of_handlesOwn (hown : HandlesOwn e sock key shared file h outcome) :
    SaleFinds e sock key shared file h outcome := by
  intro n d npcId docIds npc sold hrun
  by_contra hfails
  have hbefore := hown n d _ hrun
  have hunset : (Op.userdbFind key).execFile e key (Vector.replicate _ 0, 0) d (outcome n) =
      some (d, .error (outcome n).indeterminate.1) := by
    have hnone : (if (outcome n).ok then UserFile.userdbFind d.file key.bytes
      else none) = none := by
      by_cases hok : (outcome n).ok = true
      · have hfile : UserFile.userdbFind file key.bytes = none := by
          by_contra hfound
          exact hfails ⟨hok, hfound⟩
        rw [if_pos hok, hbefore.absent hfile, hfile]
      · exact if_neg hok
    simp only [Op.execFile, hnone]
  have hlookup : Handling e sock key shared file h outcome (n + 1) d
      (.cont (.sell npcId docIds (.creditIndeterminate npc sold (outcome n).indeterminate.1))) :=
    Handling.step _ hrun nofun hunset
  -- the offset happens to be the end of the file
  have hwrite := Handling.step (Vector.replicate _ 0, (d.file.length : ℤ)) hlookup nofun rfl
  have hgrown : (writeAt d.file d.file.length (Vector.replicate recordSize 0).toList).length =
      file.length := (hown _ _ _ hwrite).length
  rw [writeAt_end, List.length_append, Vector.length_toList, hbefore.length] at hgrown
  have hpos : 0 < recordSize := by decide
  omega

/-- **A request changes only the record of its session**, for every content of `users.dat`, every
state, request and outcome of the calls: exactly if no sale has taken its order when the lookup of
the key fails. -/
theorem handlesOwn_iff (e : ByteOrder) (sock : ℕ) (key : Key) (shared : Shared) (file : ByteFile)
    (h : Handled) (outcome : ℕ → FileChoice) :
    HandlesOwn e sock key shared file h outcome ↔ SaleFinds e sock key shared file h outcome :=
  ⟨saleFinds_of_handlesOwn, fun hsale _ _ _ hrun => (handling_kept hsale hrun).1.ownBytes⟩

/-! ### A sale without a record -/

/-- A server with one order, and one document of the user `a`. -/
def saleStart : Shared where
  files := ⟨[userDir [] [97]], fun _ => [(1, ⟨1, tagCustomer, 400, []⟩)]⟩
  npcs := [{ npcId := 7, requiredTags := tagCustomer, bounty := 1000, active := true }]

/-- The user `a`. -/
def keyA : Key := Key.ofBytes [97]

/-- The sale of the document. -/
def saleRequest : Handled := .request (.sell 7 1 (Vector.replicate _ 1))

/-- A handling goes on with an operation. -/
theorem Handling.next {pc : Command} {x : Disk × (clientLoop sock key pc).op.Ret}
    (hrun : Handling e sock key shared file h outcome n d (.cont pc)) (hbusy : pc ≠ .recv)
    (hexec : (clientLoop sock key pc).op.execFile e key (Vector.replicate _ 0, 0) d
      (outcome n) = some x) :
    Handling e sock key shared file h outcome (n + 1) x.1 ((clientLoop sock key pc).next x.2) :=
  .step _ hrun hbusy hexec

/-- The login of `a` could not append its record, and `a` sells a document. -/
theorem not_handlesOwn : ¬ HandlesOwn .little 4 keyA saleStart [] saleRequest fun _ => {} := by
  intro hown
  have h₀ : Handling .little 4 keyA saleStart [] saleRequest (fun _ => {}) _ _ _ := .start
  have h₁ := h₀.next nofun rfl
  have h₂ := h₁.next nofun rfl
  have h₃ := h₂.next nofun rfl
  have h₄ := h₃.next nofun rfl
  have h₅ := h₄.next nofun rfl
  have h₆ := h₅.next nofun rfl
  exact (saleFinds_of_handlesOwn hown _ _ _ _ _ _ h₆).2 (by decide)

end UnderFlow
