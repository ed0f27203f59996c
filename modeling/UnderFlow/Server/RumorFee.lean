import UnderFlow.Server.Footprint

/-!
# Cooldown and fee of rumors

Any number of calls of `handle_rumor`, interleaved operation by operation while the clock runs.

* `rumors` : the calls as a pool.
* `RumorMove` : what an operation of a call can do.
* `RumorInv` : at most one call holds `g_rumor_mutex`, and the record it has read is the stored one.
* `rumorsFair_of_guard` : accepted rumors are paid for, thirty seconds apart, and refused ones
  change nothing, as long as the charges are written, in the second in which the call has looked at
  the clock.
-/

namespace UnderFlow

/-! ### The calls -/

/-- A call of `handle_rumor`. -/
structure RumorCall where
  /-- The connection. -/
  sock : ℕ
  /-- Who spreads the rumor. -/
  key : Key
  /-- Whom it is about. -/
  target : Key
  /-- Where the call is. -/
  point : Next Rumoring := .cont .enter

/-- An operation of a call. -/
def rumorStep (s : Shared) (call : RumorCall) (c : Choice) :
    Option (Shared × RumorCall × List RumorCall) :=
  match call.point with
  | .cont pc =>
    let a := handleRumor call.sock call.key call.target pc
    (a.op.exec s c).map fun x => (x.1, { call with point := a.next x.2 }, [])
  | _ => none

/-- Calls of `handle_rumor` side by side. -/
abbrev Rumors := Pool Shared RumorCall

/-- **The calls**, interleaved; the environment lets some seconds pass. -/
def rumors : System Rumors Label :=
  Pool.system rumorStep fun s seconds => { s with clock := s.clock + seconds }

/-- Some calls before their first operation. -/
def Rumors.start (s : Shared) (cdUntil : ℕ) (reqs : List (ℕ × Key × Key)) : Rumors where
  shared := { s with rumor := ⟨cdUntil, false⟩ }
  threads := reqs.map fun r => { sock := r.1, key := r.2.1, target := r.2.2 }

/-- An operation that a call has made. -/
structure RumorStep where
  /-- The call. -/
  call : ℕ
  /-- The state before it. -/
  before : Shared
  /-- The state after it. -/
  after : Shared

/-- The operations that were made are recorded. -/
def rumorEvents (p : Rumors) : Label → List RumorStep
  | .run t c => ((p.threads[t]?.bind fun call => rumorStep p.shared call c).map fun x =>
      ⟨t, p.shared, x.1⟩).toList
  | .env _ => []

/-! ### Fair rumors -/

/-- The rumor is accepted. -/
def RumorCall.accepted (call : RumorCall) : Bool :=
  match call.point with
  | .cont (.commit _) | .cont .glitch | .cont (.inventory _) | .ret () => true
  | _ => false

/-- The rumor is refused. -/
def RumorCall.refused (call : RumorCall) : Bool :=
  match call.point with
  | .cont (.leave _ _) | .fail _ _ => true
  | _ => false

/-- Some record is changed. -/
def RumorStep.writes (st : RumorStep) : Bool := decide (st.after.users ≠ st.before.users)

/-- Neither a record nor the cooldown is changed. -/
def RumorStep.Idle (st : RumorStep) : Prop :=
  st.after.users = st.before.users ∧ st.after.rumor.cdUntil = st.before.rumor.cdUntil

/-- The fee is taken from the balance of the key, and nothing from any other. -/
structure RumorStep.Charges (key : Key) (st : RumorStep) : Prop where
  own : ∃ money, rumorFee ≤ money ∧ balanceOf st.before.users key = some money ∧
    balanceOf st.after.users key = some (money - rumorFee)
  others : ∀ key' ≠ key, balanceOf st.after.users key' = balanceOf st.before.users key'

/-- The operations of a call that was accepted: one of them takes the fee. -/
def PaidOnce (key : Key) (sts : List RumorStep) : Prop :=
  ∃ pre st post, sts = pre ++ st :: post ∧ st.Charges key ∧
    ∀ st' ∈ pre ++ post, st'.after.users = st'.before.users

/-- The operations of a call. -/
def stepsOf (t : ℕ) (sts : List RumorStep) : List RumorStep := sts.filter fun st => st.call = t

/-- Rumors cost what they are to cost, and not too many of them are spread. -/
structure RumorsFair (x : Rumors × List RumorStep) : Prop where
  spaced : (x.2.filter RumorStep.writes).Pairwise fun st st' =>
    st.before.clock + rumorCooldownSec ≤ st'.before.clock
  accepted : ∀ (t : ℕ) (call : RumorCall), x.1.threads[t]? = some call → call.accepted = true →
    PaidOnce call.key (stepsOf t x.2)
  refused : ∀ (t : ℕ) (call : RumorCall), x.1.threads[t]? = some call → call.refused = true →
    ∀ st ∈ stepsOf t x.2, st.Idle

/-- The call is going to charge the fee. -/
def RumorCall.charging (call : RumorCall) : Bool :=
  match call.point with
  | .cont (.update _ _ _) => true
  | _ => false

/-- The call has looked at the clock, and has not charged the fee. -/
def RumorCall.pending (call : RumorCall) : Bool :=
  match call.point with
  | .cont (.lookup _) | .cont (.update _ _ _) => true
  | _ => false

/-- A charge is written, and no time passes between the look at the clock and the charge. -/
def RumorGuard (p : Rumors) : Label → Prop
  | .run t c => ∀ call ∈ p.threads[t]?, call.charging = true → c.ok = true
  | .env seconds => seconds = 0 ∨ ∀ call ∈ p.threads, call.pending = false

instance (p : Rumors) (l : Label) : Decidable (RumorGuard p l) := by
  cases l <;> unfold RumorGuard <;> infer_instance

/-! ### What an operation does -/

variable {s s' : Shared} {call call' : RumorCall} {c : Choice} {new : List RumorCall}

/-- The call sends its glitch, and what follows. -/
def RumorCall.delivering (call : RumorCall) : Bool :=
  match call.point with
  | .cont .glitch | .cont (.inventory _) => true
  | _ => false

/-- **What an operation of a call can do.** -/
inductive RumorMove (s : Shared) (call : RumorCall) (c : Choice) (s' : Shared) (call' : RumorCall) :
    Prop
  | cool (hat : call.point = .cont .enter) (code : ErrorCode) (reason : Bytes)
      (hto : call'.point = .fail code reason) (h : s' = s)
  | enter (hat : call.point = .cont .enter) (hfree : s.rumor.locked = false)
      (hcool : s.rumor.cdUntil ≤ s.clock) (hto : call'.point = .cont (.lookup s.clock))
      (h : s' = { s with rumor := { s.rumor with locked := true } })
  | reject (now : ℕ) (hat : call.point = .cont (.lookup now)) (code : ErrorCode) (reason : Bytes)
      (hto : call'.point = .cont (.leave code reason)) (h : s' = s)
  | found (now : ℕ) (hat : call.point = .cont (.lookup now)) (rec : UserRecord) (off : ℕ)
      (hfind : userdbFind s.users call.key = some (rec, off)) (hfee : rumorFee ≤ rec.money)
      (hto : call'.point = .cont (.update now rec off)) (h : s' = s)
  | leave (code : ErrorCode) (reason : Bytes) (hat : call.point = .cont (.leave code reason))
      (hto : call'.point = .fail code reason)
      (h : s' = { s with rumor := ⟨s.rumor.cdUntil, false⟩ })
  | charge (now : ℕ) (rec : UserRecord) (off : ℕ) (hat : call.point = .cont (.update now rec off))
      (hto : call'.point = .cont (.commit now))
      (h : c.ok = true → s' = { s with
        users := s.users.set off { rec with money := rec.money - rumorFee } })
  | commit (now : ℕ) (hat : call.point = .cont (.commit now)) (hto : call'.point = .cont .glitch)
      (h : s' = { s with rumor := ⟨now + rumorCooldownSec, false⟩ })
  | deliver (hat : call.delivering = true) (hto : call'.accepted = true)
      (hout : call'.delivering = true ∨ call'.point = .ret ()) (hu : s'.users = s.users)
      (hr : s'.rumor = s.rumor) (hc : s'.clock = s.clock)

theorem rumorStep_eq (h : rumorStep s call c = some (s', call', new)) :
    ∃ pc r, call.point = .cont pc ∧
      (handleRumor call.sock call.key call.target pc).op.exec s c = some (s', r) ∧
      call' = { call with point := (handleRumor call.sock call.key call.target pc).next r } ∧
      new = [] := by
  unfold rumorStep at h
  split at h
  · rename_i pc hpc
    obtain ⟨⟨s₁, r⟩, hexec, h⟩ := Option.map_eq_some_iff.1 h
    cases h
    exact ⟨pc, r, hpc, hexec, rfl, rfl⟩
  · cases h

theorem exec_rumorEnter {r} (h : Op.rumorEnter.exec s c = some (s', r)) :
    s.rumor.locked = false ∧ ((s' = s ∧ ∃ remain, r = .error remain) ∨
      (s.rumor.cdUntil ≤ s.clock ∧ s' = { s with rumor := { s.rumor with locked := true } } ∧
        r = .ok s.clock)) := by
  simp only [Op.exec] at h
  split_ifs at h with hlocked hcool
  · cases h
    exact ⟨by simpa using hlocked, .inl ⟨rfl, _, rfl⟩⟩
  · cases h
    exact ⟨by simpa using hlocked, .inr ⟨not_lt.1 hcool, rfl, rfl⟩⟩

/-- **Every operation of a call** is one of these. -/
theorem rumorStep_move (h : rumorStep s call c = some (s', call', new)) :
    RumorMove s call c s' call' := by
  obtain ⟨pc, r, hat, hexec, rfl, -⟩ := rumorStep_eq h
  cases pc with
  | enter =>
    obtain ⟨hfree, ⟨hs, remain, rfl⟩ | ⟨hcool, hs, rfl⟩⟩ := exec_rumorEnter hexec
    · exact .cool hat _ _ rfl hs
    · exact .enter hat hfree hcool rfl hs
  | lookup now =>
    obtain ⟨hs, ⟨-, ⟨rec, off⟩, hfind, rfl⟩ | ⟨-, rfl⟩⟩ := exec_find hexec
    · by_cases hpoor : rec.money < rumorFee
      · exact .reject now hat _ _ (if_pos hpoor) hs
      · exact .found now hat rec off hfind (not_lt.1 hpoor) (if_neg hpoor) hs
    · exact .reject now hat _ _ rfl hs
  | leave code reason =>
    cases hexec
    exact .leave code reason hat rfl rfl
  | update now rec off =>
    refine .charge now rec off hat rfl fun hok => ?_
    simp only [handleRumor, Op.exec, hok, if_true] at hexec
    cases hexec
    rfl
  | commit now =>
    cases hexec
    exact .commit now hat rfl rfl
  | glitch =>
    cases hexec
    exact .deliver (by rw [RumorCall.delivering, hat]) rfl (.inl rfl) rfl rfl rfl
  | inventory q =>
    have hwithin := handleInventory_within call.sock call.key q
    have hframe := exec_frame hexec
    have hat' : call.delivering = true := by rw [RumorCall.delivering, hat]
    have hu := hframe.users (hwithin.store_ne (by simp))
    have hr := hframe.rumor (hwithin.store_ne (by simp))
    have hsteps : (handleInventory call.sock call.key q).Steps s c s' _ := ⟨r, hexec, rfl⟩
    rcases handleInventory_next hsteps with ⟨q', hq, -⟩ | ⟨hq, -⟩
    · have hto : (handleRumor call.sock call.key call.target (.inventory q)).next r =
          .cont (.inventory q') := by
        simp only [handleRumor, Action.map, hq]
      exact .deliver hat' (by simp only [RumorCall.accepted, hto])
        (.inl (by simp only [RumorCall.delivering, hto])) hu hr hframe.clock
    · have hto : (handleRumor call.sock call.key call.target (.inventory q)).next r = .ret () := by
        simp only [handleRumor, Action.map, hq]
      exact .deliver hat' (by simp only [RumorCall.accepted, hto]) (.inr hto) hu hr hframe.clock

/-! ### The mutex -/

/-- The call holds `g_rumor_mutex`. -/
def RumorCall.inside (call : RumorCall) : Option Unit :=
  match call.point with
  | .cont (.lookup _) | .cont (.leave _ _) | .cont (.update _ _ _) | .cont (.commit _) => some ()
  | _ => none

/-- What a call that holds the mutex relies on. -/
def RumorCall.Right (s : Shared) (call : RumorCall) : Prop :=
  match call.point with
  | .cont (.lookup now) => s.rumor.locked = true ∧ s.rumor.cdUntil ≤ now ∧ now = s.clock
  | .cont (.update now rec off) => s.rumor.locked = true ∧ s.rumor.cdUntil ≤ now ∧ now = s.clock ∧
      userdbFind s.users call.key = some (rec, off) ∧ rumorFee ≤ rec.money
  | .cont (.commit now) => s.rumor.locked = true ∧ s.rumor.cdUntil ≤ now
  | .cont (.leave _ _) => s.rumor.locked = true
  | _ => True

/-- What a call has done so far: nothing, or it has paid. -/
def RumorCall.Past (call : RumorCall) (sts : List RumorStep) : Prop :=
  if call.accepted then PaidOnce call.key sts else ∀ st ∈ sts, st.Idle

theorem right_of_outside (h : call.inside = none) : call.Right s := by
  unfold RumorCall.inside at h
  unfold RumorCall.Right
  split at h <;> cases h
  rename_i h₁ h₂ h₃ h₄
  split
  · rename_i hat
    exact absurd hat (h₁ _)
  · rename_i hat
    exact absurd hat (h₃ _ _ _)
  · rename_i hat
    exact absurd hat (h₄ _)
  · rename_i hat
    exact absurd hat (h₂ _ _)
  · trivial

theorem locked_of_inside (h : call.Right s) (hin : call.inside = some ()) :
    s.rumor.locked = true := by
  unfold RumorCall.inside at hin
  unfold RumorCall.Right at h
  split at hin <;> rename_i hat <;> first | rw [hat] at h | cases hin
  · exact h.1
  · exact h
  · exact h.1
  · exact h.1

theorem RumorCall.Right.congr (h : call.Right s) (hu : s'.users = s.users) (hr : s'.rumor = s.rumor)
    (hc : s'.clock = s.clock) : call.Right s' := by
  unfold RumorCall.Right at h ⊢
  rw [hu, hr, hc]
  exact h

/-- The operations of a call that are recorded. -/
theorem stepsOf_concat (t : ℕ) (sts : List RumorStep) (st : RumorStep) :
    stepsOf t (sts ++ [st]) = stepsOf t sts ++ if st.call = t then [st] else [] := by
  simp [stepsOf, List.filter_append, List.filter_cons]

/-- Without the mutex a call leaves alone what the others rely on, or takes it while it is free. -/
theorem RumorMove.frame (h : RumorMove s call c s' call') (hout : call.inside = none) :
    s.rumor.locked = false ∨ (s'.users = s.users ∧ s'.rumor = s.rumor ∧ s'.clock = s.clock) := by
  unfold RumorCall.inside at hout
  cases h with
  | cool hat code reason hto h => exact .inr (by rw [h]; exact ⟨rfl, rfl, rfl⟩)
  | enter hat hfree hcool hto h => exact .inl hfree
  | deliver hat hto hend hu hr hc => exact .inr ⟨hu, hr, hc⟩
  | reject now hat | found now hat | leave code reason hat | charge now rec off hat
  | commit now hat => rw [hat] at hout; cases hout

/-! ### One step -/

variable {t : ℕ} {sts : List RumorStep}

theorem charging_of_update {now : ℕ} {rec : UserRecord} {off : ℕ}
    (h : call.point = .cont (.update now rec off)) : call.charging = true := by
  rw [RumorCall.charging, h]

theorem delivering_cases (h : call.delivering = true) :
    call.point = .cont .glitch ∨ ∃ pc, call.point = .cont (.inventory pc) := by
  unfold RumorCall.delivering at h
  split at h
  · rename_i hat
    exact .inl hat
  · rename_i pc hat
    exact .inr ⟨pc, hat⟩
  · cases h

theorem inside_of_delivering (h : call.delivering = true ∨ call.point = .ret ()) :
    call.inside = none := by
  rcases h with h | h
  · rcases delivering_cases h with hat | ⟨pc, hat⟩ <;> rw [RumorCall.inside, hat]
  · rw [RumorCall.inside, h]

/-- What a call relies on after its own operation. -/
theorem RumorMove.right (h : RumorMove s call c s' call') (hR : call.Right s)
    (hkey : call'.key = call.key) (hok : call.charging = true → c.ok = true) : call'.Right s' := by
  cases h with
  | cool hat code reason hto h => exact right_of_outside (by rw [RumorCall.inside, hto])
  | leave code reason hat hto h => exact right_of_outside (by rw [RumorCall.inside, hto])
  | commit now hat hto h => exact right_of_outside (by rw [RumorCall.inside, hto])
  | deliver hat hto hend hu hr hc => exact right_of_outside (inside_of_delivering hend)
  | enter hat hfree hcool hto h =>
    subst h
    rw [RumorCall.Right, hto]
    exact ⟨rfl, hcool, rfl⟩
  | reject now hat code reason hto h =>
    subst h
    rw [RumorCall.Right, hat] at hR
    rw [RumorCall.Right, hto]
    exact hR.1
  | found now hat rec off hfind hfee hto h =>
    subst h
    rw [RumorCall.Right, hat] at hR
    rw [RumorCall.Right, hto, hkey]
    exact ⟨hR.1, hR.2.1, hR.2.2, hfind, hfee⟩
  | charge now rec off hat hto h =>
    rw [h (hok (charging_of_update hat))]
    rw [RumorCall.Right, hat] at hR
    rw [RumorCall.Right, hto]
    exact ⟨hR.1, hR.2.1⟩

/-- A charge takes the fee from the balance of its key. -/
theorem charges_of_found {rec : UserRecord} {off : ℕ} {key : Key}
    (hfind : userdbFind s.users key = some (rec, off)) (hfee : rumorFee ≤ rec.money)
    (h : s'.users = s.users.set off { rec with money := rec.money - rumorFee }) :
    RumorStep.Charges key ⟨t, s, s'⟩ := by
  obtain ⟨hoff, hrec, -⟩ := userdbFind_eq_some.1 hfind
  refine ⟨⟨rec.money, hfee, ?_, ?_⟩, fun key' hne => ?_⟩
  · exact (congrArg (Option.map _) hfind).trans rfl
  · show balanceOf s'.users key = _
    rw [h]
    exact balanceOf_set hfind hrec
  · show balanceOf s'.users key' = balanceOf s.users key'
    rw [h]
    refine balanceOf_set_of_ne ?_ ?_
    · exact keyAt_eq_some.2 ⟨rec, hoff, rfl⟩
    · rw [← hrec] at hne
      exact hne.symm

theorem PaidOnce.concat {key : Key} {st : RumorStep} (h : PaidOnce key sts)
    (hst : st.after.users = st.before.users) : PaidOnce key (sts ++ [st]) := by
  obtain ⟨pre, paid, post, rfl, hpaid, hidle⟩ := h
  refine ⟨pre, paid, post ++ [st], by simp, hpaid, fun st' hmem => ?_⟩
  rw [← List.append_assoc] at hmem
  rcases List.mem_append.1 hmem with hmem | hmem
  · exact hidle st' hmem
  · rw [List.mem_singleton.1 hmem]
    exact hst

/-- What a call has done after its own operation. -/
theorem RumorMove.past (h : RumorMove s call c s' call') (hR : call.Right s)
    (hkey : call'.key = call.key) (hok : call.charging = true → c.ok = true)
    (hP : call.Past sts) : call'.Past (sts ++ [⟨t, s, s'⟩]) := by
  have hidle : call.accepted = false → call'.accepted = false →
      RumorStep.Idle ⟨t, s, s'⟩ → call'.Past (sts ++ [⟨t, s, s'⟩]) := by
    intro hno hno' hst
    rw [RumorCall.Past, hno] at hP
    rw [RumorCall.Past, hno']
    intro st hmem
    rcases List.mem_append.1 hmem with hmem | hmem
    · exact hP st hmem
    · rw [List.mem_singleton.1 hmem]
      exact hst
  have hpaid : call.accepted = true → call'.accepted = true → s'.users = s.users →
      call'.Past (sts ++ [⟨t, s, s'⟩]) := by
    intro hyes hyes' hu
    rw [RumorCall.Past, hyes] at hP
    rw [RumorCall.Past, hyes', hkey]
    exact PaidOnce.concat hP hu
  cases h with
  | cool hat code reason hto h =>
    exact hidle (by rw [RumorCall.accepted, hat]) (by rw [RumorCall.accepted, hto])
      (by rw [h]; exact ⟨rfl, rfl⟩)
  | enter hat hfree hcool hto h =>
    exact hidle (by rw [RumorCall.accepted, hat]) (by rw [RumorCall.accepted, hto])
      (by rw [h]; exact ⟨rfl, rfl⟩)
  | reject now hat code reason hto h =>
    exact hidle (by rw [RumorCall.accepted, hat]) (by rw [RumorCall.accepted, hto])
      (by rw [h]; exact ⟨rfl, rfl⟩)
  | found now hat rec off hfind hfee hto h =>
    exact hidle (by rw [RumorCall.accepted, hat]) (by rw [RumorCall.accepted, hto])
      (by rw [h]; exact ⟨rfl, rfl⟩)
  | leave code reason hat hto h =>
    exact hidle (by rw [RumorCall.accepted, hat]) (by rw [RumorCall.accepted, hto])
      (by rw [h]; exact ⟨rfl, rfl⟩)
  | charge now rec off hat hto h =>
    have hs := h (hok (charging_of_update hat))
    rw [RumorCall.Past, RumorCall.accepted, hat] at hP
    rw [RumorCall.Right, hat] at hR
    rw [RumorCall.Past, RumorCall.accepted, hto, hkey]
    refine ⟨sts, _, [], rfl, charges_of_found hR.2.2.2.1 hR.2.2.2.2 (by rw [hs]), fun st hmem => ?_⟩
    rw [List.append_nil] at hmem
    exact (hP st hmem).1
  | commit now hat hto h =>
    exact hpaid (by rw [RumorCall.accepted, hat]) (by rw [RumorCall.accepted, hto]) (by rw [h])
  | deliver hat hto hend hu hr hc =>
    refine hpaid ?_ hto hu
    rcases delivering_cases hat with hat | ⟨pc, hat⟩ <;> rw [RumorCall.accepted, hat]

/-- A call takes the mutex only while it is free. -/
theorem RumorMove.takes (h : RumorMove s call c s' call') (hin : call'.inside = some ())
    (hout : call.inside = none) : s.rumor.locked = false := by
  cases h with
  | enter hat hfree hcool hto h => exact hfree
  | cool hat code reason hto h => rw [RumorCall.inside, hto] at hin; cases hin
  | deliver hat hto hend hu hr hc => rw [inside_of_delivering hend] at hin; cases hin
  | reject now hat | found now hat | leave code reason hat | charge now rec off hat
  | commit now hat => rw [RumorCall.inside, hat] at hout; cases hout

/-- Only a charge writes a record. -/
theorem RumorMove.charging (h : RumorMove s call c s' call')
    (hw : RumorStep.writes ⟨t, s, s'⟩ = true) : ∃ now rec off,
      call.point = .cont (.update now rec off) ∧ call'.point = .cont (.commit now) := by
  have hne : s'.users ≠ s.users := of_decide_eq_true hw
  cases h with
  | charge now rec off hat hto h => exact ⟨now, rec, off, hat, hto⟩
  | deliver hat hto hend hu hr hc => exact absurd hu hne
  | cool hat code reason hto h | enter hat hfree hcool hto h | reject now hat code reason hto h
  | found now hat rec off hfind hfee hto h | leave code reason hat hto h | commit now hat hto h =>
    exact absurd (by rw [h]) hne

/-- Only a commit sets the cooldown. -/
theorem RumorMove.cdUntil (h : RumorMove s call c s' call')
    (hok : call.charging = true → c.ok = true) :
    (s'.rumor.cdUntil = s.rumor.cdUntil ∧ ∀ now, call.point ≠ .cont (.commit now)) ∨
      ∃ now, call.point = .cont (.commit now) ∧
        s'.rumor.cdUntil = now + rumorCooldownSec := by
  cases h with
  | commit now hat hto h => exact .inr ⟨now, hat, by rw [h]⟩
  | charge now rec off hat hto h =>
    exact .inl ⟨by rw [h (hok (charging_of_update hat))], by rw [hat]; exact nofun⟩
  | deliver hat hto hend hu hr hc =>
    refine .inl ⟨by rw [hr], ?_⟩
    rcases delivering_cases hat with hat | ⟨pc, hat⟩ <;> rw [hat] <;> exact nofun
  | cool hat code reason hto h | enter hat hfree hcool hto h | reject now hat code reason hto h
  | found now hat rec off hfind hfee hto h | leave code reason hat hto h =>
    exact .inl ⟨by rw [h], by rw [hat]; exact nofun⟩

/-! ### The invariant -/

/-- The calls, with what they have done. -/
structure RumorInv (x : Rumors × List RumorStep) : Prop where
  right : ∀ (t : ℕ) (call : RumorCall), x.1.threads[t]? = some call → call.Right x.1.shared
  single : Pool.InjOn RumorCall.inside x.1.threads
  past : ∀ (t : ℕ) (call : RumorCall), x.1.threads[t]? = some call → call.Past (stepsOf t x.2)
  /-- The cooldown of a charge runs, or is going to be set. -/
  cooled : ∀ st ∈ x.2, st.writes = true →
    st.before.clock + rumorCooldownSec ≤ x.1.shared.rumor.cdUntil ∨
      ∃ (t : ℕ) (call : RumorCall), x.1.threads[t]? = some call ∧
        call.point = .cont (.commit st.before.clock)
  spaced : (x.2.filter RumorStep.writes).Pairwise fun st st' =>
    st.before.clock + rumorCooldownSec ≤ st'.before.clock

theorem rumorInv_start (s : Shared) (cdUntil : ℕ) (reqs : List (ℕ × Key × Key)) :
    RumorInv (Rumors.start s cdUntil reqs, []) := by
  have henter : ∀ (t : ℕ) (call : RumorCall),
    (Rumors.start s cdUntil reqs).threads[t]? = some call →
      call.point = .cont .enter := by
    intro t call h
    simp only [Rumors.start, List.getElem?_map, Option.map_eq_some_iff] at h
    obtain ⟨r, -, rfl⟩ := h
    rfl
  have hout : ∀ (t : ℕ) (call : RumorCall), (Rumors.start s cdUntil reqs).threads[t]? = some call →
      call.inside = none := fun t call h => by rw [RumorCall.inside, henter t call h]
  refine ⟨fun t call h => right_of_outside (hout t call h), ?_, fun t call h => ?_,
    fun st hst _ => absurd hst List.not_mem_nil, .nil⟩
  · intro i j u v x hu hv hfu
    rw [hout i u hu] at hfu
    cases hfu
  · rw [RumorCall.Past, RumorCall.accepted, henter t call h]
    exact fun st hst => absurd hst List.not_mem_nil

/-- A charge comes when the cooldown of every earlier one is over. -/
theorem RumorInv.cooled_charge {x : Rumors × List RumorStep} (hI : RumorInv x) {now : ℕ}
    {rec : UserRecord} {off : ℕ} (hcall : x.1.threads[t]? = some call)
    (hat : call.point = .cont (.update now rec off)) {st : RumorStep} (hst : st ∈ x.2)
    (hw : st.writes = true) : st.before.clock + rumorCooldownSec ≤ x.1.shared.rumor.cdUntil := by
  rcases hI.cooled st hst hw with hle | ⟨j, u, hu, hcommit⟩
  · exact hle
  · have hin : u.inside = some () := by rw [RumorCall.inside, hcommit]
    have hin' : call.inside = some () := by rw [RumorCall.inside, hat]
    obtain rfl := hI.single j t u call () hu hcall hin hin'
    rw [hcall] at hu
    cases hu
    rw [hat] at hcommit
    cases hcommit

/-- **The step of a call.** -/
theorem rumorInv_run {p p' : Rumors} (hI : RumorInv (p, sts)) (hG : RumorGuard p (.run t c))
    (hn : rumors.next p (.run t c) = some p') :
    RumorInv (p', sts ++ rumorEvents p (.run t c)) := by
  obtain ⟨call, s', call', new, hth, hstep, rfl⟩ := Pool.next_run.1 hn
  obtain ⟨pc, r, -, -, hcall', rfl⟩ := rumorStep_eq hstep
  have hmove := rumorStep_move hstep
  have hkey : call'.key = call.key := by rw [hcall']
  have hok : call.charging = true → c.ok = true := hG call hth
  have hR := hI.right t call hth
  have hev : rumorEvents p (.run t c) = [⟨t, p.shared, s'⟩] := by
    simp only [rumorEvents]
    rw [hth, Option.bind_some, hstep]
    rfl
  have hlook : ∀ {j : ℕ} {u : RumorCall}, (p.threads.set t call' ++ [])[j]? = some u →
      (j ≠ t ∧ p.threads[j]? = some u) ∨ (j = t ∧ u = call') := by
    intro j u hu
    rcases Pool.getElem?_step hu with h | h | h
    · exact .inl h
    · exact .inr h
    · cases h
  have hself : (p.threads.set t call' ++ [])[t]? = some call' := Pool.getElem?_step_self hth
  have hother : ∀ {j : ℕ} {u : RumorCall}, j ≠ t → p.threads[j]? = some u →
      (p.threads.set t call' ++ [])[j]? = some u := fun hj hu => Pool.getElem?_step_of_ne hj hu
  rw [hev]
  refine ⟨fun j u hu => ?_, ?_, fun j u hu => ?_, fun st hst hw => ?_, ?_⟩
  · rcases hlook hu with ⟨hj, hu⟩ | ⟨rfl, rfl⟩
    · -- the others rely on what only the holder of the mutex changes
      rcases hin : u.inside with _ | ⟨⟩
      · exact right_of_outside hin
      · have hRu := hI.right j u hu
        have hout : call.inside = none := by
          rcases hcall : call.inside with _ | ⟨⟩
          · rfl
          · exact absurd (hI.single j t u call () hu hth hin hcall) hj
        rcases hmove.frame hout with hunlocked | ⟨hu', hr, hc⟩
        · rw [locked_of_inside hRu hin] at hunlocked
          cases hunlocked
        · exact hRu.congr hu' hr hc
    · exact hmove.right hR hkey hok
  · rw [List.append_nil]
    refine Pool.InjOn.set hI.single hth fun x hx => ?_
    rcases hout : call.inside with _ | ⟨⟩
    · refine .inr fun v hv hin => ?_
      obtain ⟨j, hj⟩ := List.getElem?_of_mem hv
      have hlocked := locked_of_inside (hI.right j v hj) hin
      rw [hmove.takes hx hout] at hlocked
      cases hlocked
    · exact .inl rfl
  · rcases hlook hu with ⟨hj, hu⟩ | ⟨rfl, rfl⟩
    · rw [stepsOf_concat, if_neg (Ne.symm hj), List.append_nil]
      exact hI.past j u hu
    · rw [stepsOf_concat, if_pos rfl]
      exact hmove.past hR hkey hok (hI.past j call hth)
  · rcases List.mem_append.1 hst with hst | hst
    · rcases hI.cooled st hst hw with hle | ⟨j, u, hu, hcommit⟩
      · left
        rcases hmove.cdUntil hok with ⟨hcd, -⟩ | ⟨now, hat, hcd⟩
        · exact hle.trans hcd.ge
        · rw [RumorCall.Right, hat] at hR
          exact hle.trans (hR.2.trans (by rw [hcd]; exact Nat.le_add_right _ _))
      -- the commit of this very call sets the cooldown it promised
      · by_cases hj : j = t
        · subst hj
          rw [hth] at hu
          cases hu
          rcases hmove.cdUntil hok with ⟨-, hno⟩ | ⟨now, hat, hcd⟩
          · exact absurd hcommit (hno _)
          · rw [hcommit] at hat
            cases hat
            exact .inl hcd.ge
        · exact .inr ⟨j, u, hother hj hu, hcommit⟩
    · rw [List.mem_singleton.1 hst] at hw ⊢
      obtain ⟨now, rec, off, hat, hto⟩ := hmove.charging hw
      rw [RumorCall.Right, hat] at hR
      exact .inr ⟨t, call', hself, by rw [hto, hR.2.2.1]⟩
  · rw [List.filter_append, List.pairwise_append]
    refine ⟨hI.spaced, ?_, fun st hst st' hst' => ?_⟩
    · exact (List.pairwise_singleton _ _).sublist List.filter_sublist
    · obtain ⟨hst, hw⟩ := List.mem_filter.1 hst
      obtain ⟨hst', hw'⟩ := List.mem_filter.1 hst'
      rw [List.mem_singleton.1 hst'] at hw' ⊢
      obtain ⟨now, rec, off, hat, -⟩ := hmove.charging hw'
      rw [RumorCall.Right, hat] at hR
      exact (hI.cooled_charge hth hat hst hw).trans (hR.2.1.trans hR.2.2.1.le)

/-- Time may pass, unless the call is going to charge. -/
theorem RumorCall.Right.later {seconds : ℕ} (h : call.Right s) (hpending : call.pending = false) :
    call.Right { s with clock := s.clock + seconds } := by
  unfold RumorCall.pending at hpending
  unfold RumorCall.Right at h ⊢
  rcases hat : call.point with pc | _ | _
  · rw [hat] at h hpending
    cases pc <;> first | exact h | cases hpending
  · trivial
  · trivial

theorem not_accepted_of_refused (h : call.refused = true) : call.accepted = false := by
  unfold RumorCall.refused at h
  unfold RumorCall.accepted
  rcases hat : call.point with pc | _ | _
  · rw [hat] at h
    cases pc <;> first | rfl | cases h
  · rw [hat] at h
    cases h
  · rfl

/-- **Time passes.** -/
theorem rumorInv_env {p p' : Rumors} {seconds : ℕ} (hI : RumorInv (p, sts))
    (hG : RumorGuard p (.env seconds)) (hn : rumors.next p (.env seconds) = some p') :
    RumorInv (p', sts ++ rumorEvents p (.env seconds)) := by
  obtain rfl := Pool.next_env.1 hn
  have hev : rumorEvents p (.env seconds) = [] := rfl
  rw [hev, List.append_nil]
  refine ⟨fun j u hu => ?_, hI.single, hI.past, hI.cooled, hI.spaced⟩
  have hR := hI.right j u hu
  rcases hG with rfl | hnone
  · exact hR
  · have hpending := hnone u (List.mem_of_getElem? hu)
    exact hR.later hpending

/-- **Cooldown and fee**: in every run of any number of calls in which every charge is written, and
no second passes between the look at the clock and the charge. -/
theorem rumorsFair_of_guard (s : Shared) (cdUntil : ℕ) (reqs : List (ℕ × Key × Key))
    {x : Rumors × List RumorStep}
    (h : (rumors.withHistory rumorEvents).Reach (fun x l => RumorGuard x.1 l)
      (Rumors.start s cdUntil reqs, []) x) : RumorsFair x := by
  have hI : RumorInv x := by
    refine h.invariant (rumorInv_start s cdUntil reqs) fun x l x' _ hI hG hn => ?_
    obtain ⟨hn, hhist⟩ := System.withHistory_next.1 hn
    have hx : x' = (x'.1, x.2 ++ rumorEvents x.1 l) := by rw [← hhist]
    rw [hx]
    cases l with
    | run t c => exact rumorInv_run hI hG hn
    | env seconds => exact rumorInv_env hI hG hn
  refine ⟨hI.spaced, fun t call hcall hyes => ?_, fun t call hcall hno => ?_⟩
  · have hpast := hI.past t call hcall
    rwa [RumorCall.Past, hyes] at hpast
  · have hpast := hI.past t call hcall
    rw [RumorCall.Past, if_neg] at hpast
    · exact hpast
    · rw [not_accepted_of_refused hno]
      exact nofun

/-! ### Runs -/

/-- Two users. -/
def rumorA : Key := ⟨[97], by decide, by decide⟩
/-- A key. -/
def rumorB : Key := ⟨[98], by decide, by decide⟩

/-- One user asks once and another one twice; each has 1000. -/
def rumorStart : Rumors :=
  let users := [{ key := rumorA, money := 1000 }, { key := rumorB, money := 1000 }]
  .start { freshBoot.shared with users := users } 0
    [(4, rumorA, rumorB), (5, rumorB, rumorA), (5, rumorB, rumorA)]

/-- The first call is accepted, the second comes too early, and the third is accepted. -/
def rumorScript : List Label :=
  steps 0 4 ++ .env 5 :: steps 1 1 ++ .env 25 :: steps 2 4

/-- Two rumors are paid for in a guarded run. -/
theorem rumorsFair_twice : ∃ x, (rumors.withHistory rumorEvents).Reach (fun x l => RumorGuard x.1 l)
    (rumorStart, []) x ∧ (x.2.filter RumorStep.writes).length = 2 ∧ RumorsFair x := by
  obtain ⟨x, hx, hf⟩ := (rumors.withHistory rumorEvents).exists_reach_of_any
    (fun x l => RumorGuard x.1 l) (rumorStart, []) rumorScript
    (fun x => (x.2.filter RumorStep.writes).length == 2) (by decide +kernel)
  exact ⟨x, hx, eq_of_beq hf, rumorsFair_of_guard _ _ _ hx⟩

/-- The write of the charge fails. -/
def unpaidScript : List Label := steps 0 2 ++ .run 0 { ok := false } :: steps 0 2

/-- Nobody pays for a rumor that is spread. -/
theorem not_rumorsFair : ∃ x, (rumors.withHistory rumorEvents).Reach System.anyStep
    (rumorStart, []) x ∧ ¬ RumorsFair x := by
  obtain ⟨x, hx, hf⟩ := (rumors.withHistory rumorEvents).exists_reach_of_any System.anyStep
    (rumorStart, []) unpaidScript
    (fun x => (x.1.threads[0]?.any RumorCall.accepted) && x.2.all fun st => !st.writes)
    (by decide +kernel)
  obtain ⟨hyes, hfree⟩ := Bool.and_eq_true_iff.1 hf
  obtain ⟨call, hcall, haccepted⟩ := (Option.any_eq_true _ _).1 hyes
  refine ⟨x, hx, fun hfair => ?_⟩
  obtain ⟨pre, st, post, hsts, ⟨⟨money, -, hbefore, hafter⟩, -⟩, -⟩ :=
    hfair.accepted 0 call hcall haccepted
  have hst : st ∈ x.2 := by
    have hmem : st ∈ stepsOf 0 x.2 := by rw [hsts]; simp
    exact (List.mem_filter.1 hmem).1
  have hsame : st.after.users = st.before.users := by
    simpa [RumorStep.writes] using List.all_eq_true.1 hfree st hst
  rw [hsame, hbefore, Option.some.injEq, rumorFee] at hafter
  omega

/-- The second charge follows the first one, which was late, after 27 seconds. -/
def lateChargeScript : List Label := steps 0 2 ++ .env 3 :: steps 0 2 ++ .env 27 :: steps 1 4

/-- Two charges come too close when time passes before the first one. -/
theorem not_rumorsFair_late : ∃ x, (rumors.withHistory rumorEvents).Reach System.anyStep
    (rumorStart, []) x ∧ ¬ RumorsFair x := by
  obtain ⟨x, hx, hf⟩ := (rumors.withHistory rumorEvents).exists_reach_of_any System.anyStep
    (rumorStart, []) lateChargeScript
    (fun x => (x.2.filter RumorStep.writes).map (·.before.clock) == [4, 31]) (by decide +kernel)
  refine ⟨x, hx, fun hfair => ?_⟩
  have hspaced : ((x.2.filter RumorStep.writes).map (·.before.clock)).Pairwise
      fun m n => m + rumorCooldownSec ≤ n := List.pairwise_map.2 hfair.spaced
  rw [eq_of_beq hf] at hspaced
  exact absurd hspaced (by decide)

end UnderFlow
