import UnderFlow.Server.Raiding

/-!
# Outcomes of raids

* `RaidOutcome` : every victim of a raid is either sent the confirmation or burned, nobody else is
  burned by it, and an answer clears no entry but its own.
* `RaidGuard` : answers and the timer of their raid keep apart; sessions have different keys.
* `raidOutcome_of_guard` : then `RaidOutcome` holds in every state of a run.  A victim waits in the
  table, or is about to be spared or burned, or has been: exactly one of them (`ledger_step`).
* `not_raidOutcome` : an answer that overlaps the timeout is confirmed, and its sender burned.
-/

namespace UnderFlow

variable {s s' : Shared} {c : Choice} {th th' : Thread} {a : Action Thread} {key k : Key}
  {n m : ℕ} {p p' : Server} {hist ev : List RaidEvent} {t : ℕ} {new : List Thread}

/-! ### Victims and outcomes -/

/-- What a step reports of a raid. -/
def raidEventsAt (p : Server) (l : Label) : List RaidEvent :=
  (threadAt p l).elim [] fun th => th.raidEvents p.shared (choiceOf l).ok

/-- The server with a record of its raids. -/
def raidServer : System (Server × List RaidEvent) Label := server.withHistory raidEventsAt

/-- The key has an open entry in the raid. -/
def Waiting (r : Raid) (n : ℕ) (k : Key) : Prop := r.serial = n ∧ k ≠ Key.empty ∧ k ∈ r.pending

/-- The thread is about to confirm the key in the raid. -/
def RaidRole.Answers (n : ℕ) (k : Key) (r : RaidRole) : Prop := r = .answering n k

/-- The thread is about to burn the key for the raid. -/
def RaidRole.Owes (n : ℕ) (k : Key) : RaidRole → Prop
  | .burning m keys => m = n ∧ k ∈ keys
  | _ => False

/-- The outcome for the key is still open, or on its way. -/
def Unsettled (p : Server) (n : ℕ) (k : Key) : Prop :=
  Waiting p.shared.raid n k ∨ ∃ u ∈ p.threads, u.role.Answers n k ∨ u.role.Owes n k

/-- **Every victim of a raid has one outcome.** -/
structure RaidOutcome (p : Server) (hist : List RaidEvent) : Prop where
  /-- A user who was sent the confirmation is not burned by that raid. -/
  notBoth : ∀ n k, .ok n k ∈ hist → .burned n k ∉ hist
  /-- A settled victim has an outcome. -/
  one : ∀ n keys k, .launched n keys ∈ hist → k ∈ keys →
    Unsettled p n k ∨ .ok n k ∈ hist ∨ .burned n k ∈ hist
  /-- Nobody else has one. -/
  only : ∀ n k, .ok n k ∈ hist ∨ .burned n k ∈ hist → ∃ keys, .launched n keys ∈ hist ∧ k ∈ keys
  /-- No open entry is forgotten. -/
  attended : ∀ n k, Waiting p.shared.raid n k → ∃ u ∈ p.threads, u.role = .closing n
  /-- An answer clears no entry but its own. -/
  own : ∀ u ∈ p.threads, ∀ right i n key, u.role = .clearing right i n key → ∀ (j : ℕ) (k : Key),
    p.shared.raid.pending[j]? = some k → k ≠ Key.empty →
    (raidClear p.shared.raid i).pending[j]? = some k ∨ k = key ∧ p.shared.raid.serial = n

/-! ### When it holds -/

/-- An answer is between its two critical sections. -/
def RaidRole.clears : RaidRole → Bool
  | .clearing _ _ _ _ => true
  | _ => false

/-- A right answer is between its two critical sections. -/
def RaidRole.clearsRight : RaidRole → Bool
  | .clearing right _ _ _ => right
  | _ => false

/-- The operation takes the snapshot of the victims. -/
def Op.snapshots : Op → Bool
  | .raidTimeout => true
  | _ => false

/-- The operation launches a raid. -/
def Op.launches : Op → Bool
  | .raidLaunchAll | .raidLaunchSelf _ => true
  | _ => false

/-- The calls that raids, logins and sales rely on succeed, sessions have different keys, the
snapshot of the victims is taken only while no right answer is between its two critical sections,
and a raid is launched only while no answer is. -/
structure RaidGuard (p : Server) (l : Label) : Prop where
  db : DbOk p l
  works : ∀ th ∈ threadAt p l, th.raids = true → ∀ o ∈ opAt p l, o.vital = true →
    (choiceOf l).ok = true
  sessions : (p.threads.filterMap Thread.sessionKey).Nodup
  clients : (clientKeys p.shared.clients).Nodup
  keys : ∀ u ∈ p.threads, u.sessionKey ≠ some Key.empty
  timeout : ∀ o ∈ opAt p l, o.snapshots = true → ∀ u ∈ p.threads, u.role.clearsRight = false
  launch : ∀ o ∈ opAt p l, o.launches = true → p.shared.raid.deadline = 0 →
    ∀ u ∈ p.threads, u.role.clears = false

instance (p : Server) (l : Label) : Decidable (RaidGuard p l) :=
  decidable_of_iff (_ ∧ _ ∧ _ ∧ _ ∧ _ ∧ _ ∧ _)
    ⟨fun ⟨h₁, h₂, h₃, h₄, h₅, h₆, h₇⟩ => ⟨h₁, h₂, h₃, h₄, h₅, h₆, h₇⟩,
      fun h => ⟨h.db, h.works, h.sessions, h.clients, h.keys, h.timeout, h.launch⟩⟩

/-! ### The ledger -/

/-- The key was a victim of the raid when it was launched. -/
def Launched (hist : List RaidEvent) (n : ℕ) (k : Key) : Prop :=
  ∃ keys, .launched n keys ∈ hist ∧ k ∈ keys

/-- The key has been confirmed, or is about to be. -/
def Spared (p : Server) (hist : List RaidEvent) (n : ℕ) (k : Key) : Prop :=
  .ok n k ∈ hist ∨ ∃ u ∈ p.threads, u.role.Answers n k

/-- The key has been burned, or is about to be. -/
def Condemned (p : Server) (hist : List RaidEvent) (n : ℕ) (k : Key) : Prop :=
  .burned n k ∈ hist ∨ ∃ u ∈ p.threads, u.role.Owes n k

/-- A victim is at one of three places, and only victims are at one. -/
structure Placed (p : Server) (hist : List RaidEvent) (n : ℕ) (k : Key) : Prop where
  launched : Launched hist n k ↔
    Waiting p.shared.raid n k ∨ Spared p hist n k ∨ Condemned p hist n k
  waitingSpared : Waiting p.shared.raid n k → ¬ Spared p hist n k
  waitingCondemned : Waiting p.shared.raid n k → ¬ Condemned p hist n k
  sparedCondemned : Spared p hist n k → ¬ Condemned p hist n k

/-- How a step moves one key. -/
inductive LedgerStep (p : Server) (hist : List RaidEvent) (p' : Server) (hist' : List RaidEvent)
    (n : ℕ) (k : Key) : Prop
  | stay (hw : Waiting p'.shared.raid n k ↔ Waiting p.shared.raid n k)
      (hs : Spared p' hist' n k ↔ Spared p hist n k)
      (hc : Condemned p' hist' n k ↔ Condemned p hist n k)
      (hl : Launched hist' n k ↔ Launched hist n k)
  | launch (hl : ¬ Launched hist n k) (hw : Waiting p'.shared.raid n k)
      (hs : Spared p' hist' n k ↔ Spared p hist n k)
      (hc : Condemned p' hist' n k ↔ Condemned p hist n k) (hl' : Launched hist' n k)
  | spare (hw : Waiting p.shared.raid n k) (hw' : ¬ Waiting p'.shared.raid n k)
      (hs : Spared p' hist' n k) (hc : Condemned p' hist' n k ↔ Condemned p hist n k)
      (hl : Launched hist' n k ↔ Launched hist n k)
  | condemn (hw : Waiting p.shared.raid n k ∨ Condemned p hist n k)
      (hw' : ¬ Waiting p'.shared.raid n k) (hs : Spared p' hist' n k ↔ Spared p hist n k)
      (hc : Condemned p' hist' n k) (hl : Launched hist' n k ↔ Launched hist n k)

theorem placed_step {hist' : List RaidEvent} (h : Placed p hist n k)
    (hstep : LedgerStep p hist p' hist' n k) : Placed p' hist' n k := by
  obtain ⟨hl, hws, hwc, hsc⟩ := h
  cases hstep with
  | stay hw hs hc hl' =>
    rw [← hw, ← hs, ← hc, ← hl'] at hl
    rw [← hw, ← hs] at hws
    rw [← hw, ← hc] at hwc
    rw [← hs, ← hc] at hsc
    exact ⟨hl, hws, hwc, hsc⟩
  | launch hno hw hs hc hl' =>
    have hns : ¬ Spared p hist n k := fun h => hno (hl.2 (.inr (.inl h)))
    have hnc : ¬ Condemned p hist n k := fun h => hno (hl.2 (.inr (.inr h)))
    rw [← hs] at hns
    rw [← hc] at hnc
    exact ⟨iff_of_true hl' (.inl hw), fun _ => hns, fun _ => hnc, fun h => absurd h hns⟩
  | spare hw hw' hs hc hl' =>
    have hnc := hwc hw
    rw [← hc] at hnc
    exact ⟨iff_of_true (hl'.2 (hl.2 (.inl hw))) (.inr (.inl hs)), fun h => absurd h hw',
      fun h => absurd h hw', fun _ => hnc⟩
  | condemn hw hw' hs hc hl' =>
    have hns : ¬ Spared p hist n k := hw.elim hws fun hc hs => hsc hs hc
    rw [← hs] at hns
    exact ⟨iff_of_true (hl'.2 (hl.2 (hw.imp_right .inr))) (.inr (.inr hc)),
      fun h => absurd h hw', fun h => absurd h hw', fun h => absurd h hns⟩

/-! ### The invariant -/

/-- The thread is responsible for closing the raid. -/
def RaidRole.closes : RaidRole → Option Unit
  | .cancelling | .closing _ => some ()
  | _ => none

/-- What a role relies on. -/
def RaidRole.Ok (p : Server) (hist : List RaidEvent) : RaidRole → Prop
  | .cancelling => p.shared.raid.deadline ≠ 0 ∧ ∀ k ∈ p.shared.raid.pending, k = Key.empty
  | .closing n => n = p.shared.raid.serial ∧ p.shared.raid.deadline ≠ 0
  | .rollback => False
  | .clearing right i n key => n = p.shared.raid.serial ∧ key ≠ Key.empty ∧
    (p.shared.raid.pending[i]? = some key ∨
      -- the timeout was first, and the entry is gone
      right = false ∧ Condemned p hist n key ∧
        ∀ k, p.shared.raid.pending[i]? = some k → k = Key.empty)
  | _ => True

/-- The key is in a slot, in the table, or about to be burned. -/
def InUse (p : Server) (k : Key) : Prop :=
  (k ≠ Key.empty ∧ ((∃ cl ∈ p.shared.clients, cl.key = k) ∨ k ∈ p.shared.raid.pending)) ∨
    ∃ u ∈ p.threads, ∃ n, u.role.Owes n k

/-- **The invariant**: the open entries, the history and the threads that deal with a raid agree. -/
structure RaidInv (p : Server) (hist : List RaidEvent) : Prop where
  accounts : Accounts p
  placed : ∀ n k, Placed p hist n k
  serial : ∀ n keys, .launched n keys ∈ hist → n ≤ p.shared.raid.serial
  single : ∀ (i j : ℕ) (k : Key), p.shared.raid.pending[i]? = some k →
    p.shared.raid.pending[j]? = some k → k ≠ Key.empty → i = j
  closed : p.shared.raid.deadline = 0 → ∀ k ∈ p.shared.raid.pending, k = Key.empty
  roles : ∀ u ∈ p.threads, u.role.Ok p hist
  closer : p.shared.raid.deadline ≠ 0 → ∃ u ∈ p.threads, u.role.closes = some ()
  closers : Pool.InjOn (fun u => u.role.closes) p.threads
  known : ∀ k, InUse p k → ∃ r ∈ p.shared.users, r.key = k
  targets : ∀ u ∈ p.threads, ∀ n k off, u.raidBurn = some (n, k, off) →
    keyAt p.shared.users off = some k

section Ledger

variable (hth : p.threads[t]? = some th) (hp' : p' = ⟨s', p.threads.set t th' ++ new⟩)

include hth hp'

theorem spared_keep (h : .ok n k ∈ ev ∨ th'.role.Answers n k ∨ (∃ u ∈ new, u.role.Answers n k) ↔
    th.role.Answers n k) : Spared p' (hist ++ ev) n k ↔ Spared p hist n k := by
  subst hp'
  rw [Spared, Spared, Pool.exists_mem_step hth, Pool.exists_mem hth, List.mem_append, ← h]
  simp only [or_assoc]

theorem condemned_keep (h : .burned n k ∈ ev ∨ th'.role.Owes n k ∨ (∃ u ∈ new, u.role.Owes n k) ↔
    th.role.Owes n k) : Condemned p' (hist ++ ev) n k ↔ Condemned p hist n k := by
  subst hp'
  rw [Condemned, Condemned, Pool.exists_mem_step hth, Pool.exists_mem hth, List.mem_append, ← h]
  simp only [or_assoc]

end Ledger

theorem launched_keep (h : ∀ keys, .launched n keys ∈ ev → k ∉ keys) :
    Launched (hist ++ ev) n k ↔ Launched hist n k := by
  constructor
  · rintro ⟨keys, hmem, hk⟩
    rcases List.mem_append.1 hmem with hmem | hmem
    · exact ⟨keys, hmem, hk⟩
    · exact absurd hk (h keys hmem)
  · rintro ⟨keys, hmem, hk⟩
    exact ⟨keys, List.mem_append_left _ hmem, hk⟩

/-- An entry of the table after a clear. -/
theorem mem_clear {r : Raid} {i : ℕ} (hk : k ≠ Key.empty) :
    k ∈ (raidClear r i).pending ↔ ∃ j, j ≠ i ∧ r.pending[j]? = some k := by
  constructor
  · intro h
    obtain ⟨j, hj⟩ := List.getElem?_of_mem h
    simp only [raidClear, List.getElem?_set] at hj
    split_ifs at hj with hij hlt
    · cases hj
      exact absurd rfl hk
    · exact ⟨j, Ne.symm hij, hj⟩
  · rintro ⟨j, hji, hj⟩
    refine List.mem_of_getElem? (i := j) ?_
    rw [raidClear, List.getElem?_set_ne hji.symm, hj]

theorem owes_rests {r : RaidRole} (h : r.Rests) : ¬ r.Owes n k := by
  rcases h with rfl | ⟨m, rfl⟩ <;> simp [RaidRole.Owes]

theorem answers_rests {r : RaidRole} (h : r.Rests) : ¬ r.Answers n k := by
  rcases h with rfl | ⟨m, rfl⟩ <;> simp [RaidRole.Answers]

/-- No victim of a launch is the empty key. -/
theorem raidKeys_ne_empty {l : Label} (hG : RaidGuard p l) (hth : p.threads[t]? = some th)
    {keys : List Key} (h : th.raidKeys p.shared = some keys) : ∀ k ∈ keys, k ≠ Key.empty := by
  have hmem := List.mem_of_getElem? hth
  intro k hk
  cases th with
  | session sock key pc =>
    cases pc with
    | selfRaid q =>
      cases q <;> cases h
      rw [List.mem_singleton.1 hk]
      exact fun he => hG.keys _ hmem (congrArg some he)
    | _ => cases h
  | event v pc =>
    cases pc with
    | raid q =>
      cases q <;> cases h
      obtain ⟨cl, hcl, rfl⟩ := List.mem_map.1 hk
      have hcl' := (List.mem_filter.1 hcl).2
      simp only [Bool.and_eq_true, bne_iff_ne] at hcl'
      exact hcl'.2
    | _ => cases h
  | _ => cases h

/-- The snapshot takes over the open entries of the raid. -/
theorem timeout_owes {r : Raid} (h : th'.role = .burning r.serial (raidTimeout r).1 ∨
    (raidTimeout r).1 = [] ∧ th'.role = .idle) : th'.role.Owes n k ↔ Waiting r n k := by
  have hvictim : k ∈ (raidTimeout r).1 ↔ k ≠ Key.empty ∧ k ∈ r.pending := by
    simp [raidTimeout, and_comm]
  rw [Waiting, ← hvictim]
  rcases h with hrole | ⟨hnil, hrole⟩ <;> rw [hrole]
  · rfl
  · rw [hnil]
    simp [RaidRole.Owes]

theorem timer_role : (NewThread.start (.raidTimeout m)).role = .closing m := rfl

/-- The record of a key that is to be burned is found. -/
theorem found_of_owes {rest : List Key} (hI : RaidInv p hist) (hth : p.threads[t]? = some th)
    (hrole : th.role = .burning m (key :: rest))
    (hfind : th'.role = th.role ∨ userdbFind p.shared.users key = none) : th'.role = th.role := by
  refine hfind.resolve_right fun hno => ?_
  have howes : th.role.Owes m key := by
    rw [hrole]
    exact ⟨rfl, List.mem_cons_self⟩
  obtain ⟨r, hr, hk⟩ := hI.known key (.inr ⟨th, List.mem_of_getElem? hth, m, howes⟩)
  exact userdbFind_eq_none.1 hno r hr hk

/-- **A step moves a key one place on, if at all.** -/
theorem ledger_step (hI : RaidInv p hist) (hG : RaidGuard p (.run t c))
    (hth : p.threads[t]? = some th) (hp' : p' = ⟨s', p.threads.set t th' ++ new⟩)
    (h : RaidStep p.shared th s' th' new ev) (n : ℕ) (k : Key) :
    LedgerStep p hist p' (hist ++ ev) n k := by
  have hsh : p'.shared = s' := by rw [hp']
  have hrole := hI.roles th (List.mem_of_getElem? hth)
  cases h with
  -- a step outside the raid leaves every key where it is
  | quiet hraid hrole' hnew hev =>
    have hno : ∀ Q : RaidRole → Prop, ¬ Q .idle → ¬ ∃ u ∈ new, Q u.role := by
      rintro Q hQ ⟨u, hu, hQu⟩
      exact hQ (hnew u hu ▸ hQu)
    have ha : ¬ ∃ u ∈ new, u.role.Answers n k := hno (·.Answers n k) (by simp [RaidRole.Answers])
    have ho : ¬ ∃ u ∈ new, u.role.Owes n k := hno (·.Owes n k) (by simp [RaidRole.Owes])
    refine .stay (by rw [hsh, hraid]) (spared_keep hth hp' ?_) (condemned_keep hth hp' ?_)
      (launched_keep (by simp [hev]))
    · rcases hrole' with hrole' | ⟨h₁, h₂⟩
      · simp [hev, hrole', ha]
      · simp [hev, ha, answers_rests h₁, answers_rests h₂]
    · rcases hrole' with hrole' | ⟨h₁, h₂⟩
      · simp [hev, hrole', ho]
      · simp [hev, ho, owes_rests h₁, owes_rests h₂]
  | launch keys hkeys h0 now rand hraid hth' hrole' hnew hev =>
    obtain ⟨-, hserial, -, hpending⟩ := launch_eq_some hraid
    have hs : Spared p' (hist ++ ev) n k ↔ Spared p hist n k := by
      refine spared_keep hth hp' ?_
      rcases hrole' with ⟨hrole', -⟩ | hrole' <;> simp [hev, hnew, hth', hrole', RaidRole.Answers]
    have hc : Condemned p' (hist ++ ev) n k ↔ Condemned p hist n k := by
      refine condemned_keep hth hp' ?_
      rcases hrole' with ⟨hrole', -⟩ | hrole' <;> simp [hev, hnew, hth', hrole', RaidRole.Owes]
    -- only the keys of the new raid begin to wait
    by_cases hnk : n = p.shared.raid.serial + 1 ∧ k ∈ keys
    · obtain ⟨rfl, hk⟩ := hnk
      refine .launch ?_ ⟨by rw [hsh, hserial], raidKeys_ne_empty hG hth hkeys k hk, ?_⟩ hs hc
        ⟨keys, by simp [hev], hk⟩
      · rintro ⟨keys', hmem, -⟩
        have hle := hI.serial _ keys' hmem
        omega
      · rw [hsh, hpending]
        exact List.mem_append_left _ hk
    · refine .stay ⟨?_, ?_⟩ hs hc (launched_keep fun keys' hmem hk => hnk ?_)
      · rintro ⟨hn, hne, hk⟩
        rw [hsh, hserial] at hn
        rw [hsh, hpending, List.mem_append, List.mem_replicate] at hk
        exact absurd ⟨hn.symm, hk.resolve_right fun h => hne h.2⟩ hnk
      · rintro ⟨-, hne, hk⟩
        exact absurd (hI.closed h0 k hk) hne
      · rw [hev, List.mem_singleton] at hmem
        cases hmem
        exact ⟨rfl, hk⟩
  | cancel hth' hrole' hraid hnew hev =>
    refine .stay (by rw [hsh, hraid]; rfl) (spared_keep hth hp' ?_) (condemned_keep hth hp' ?_)
      (launched_keep (by simp [hev]))
    · simp [hev, hnew, hth', hrole', RaidRole.Answers]
    · simp [hev, hnew, hth', hrole', RaidRole.Owes]
  | timer m hth' hrole' hnew hraid hev =>
    refine .stay (by rw [hsh, hraid]) (spared_keep hth hp' ?_) (condemned_keep hth hp' ?_)
      (launched_keep (by simp [hev]))
    · simp [hev, hnew, hth', hrole', RaidRole.Answers, timer_role]
    · simp [hev, hnew, hth', hrole', RaidRole.Owes, timer_role]
  | timeout m hth' hraid hrole' hnew hev =>
    have hclosing : th.role = .closing m := by
      rw [hth']
      rfl
    rw [hclosing] at hrole
    obtain ⟨rfl, -⟩ := hrole
    have hs : Spared p' (hist ++ ev) n k ↔ Spared p hist n k := by
      refine spared_keep hth hp' ?_
      rcases hrole' with hrole' | ⟨-, hrole'⟩ <;>
        simp [hev, hnew, hrole', hclosing, RaidRole.Answers]
    have hw' : ¬ Waiting p'.shared.raid n k := by
      rintro ⟨-, hne, hk⟩
      rw [hsh, hraid] at hk
      obtain ⟨_, -, rfl⟩ := List.mem_map.1 hk
      exact hne rfl
    have howes := timeout_owes (n := n) (k := k) hrole'
    -- the snapshot moves every key that still waits from the table to the hands of the timer
    by_cases hw : Waiting p.shared.raid n k
    · refine .condemn (.inl hw) hw' hs ?_ (launched_keep (by simp [hev]))
      subst hp'
      exact .inr ((Pool.exists_mem_step hth).2 (.inl (howes.2 hw)))
    · refine .stay (iff_of_false hw' hw) hs (condemned_keep hth hp' ?_)
        (launched_keep (by simp [hev]))
      have hno : ¬ th.role.Owes n k := by
        rw [hclosing]
        exact id
      simp [hev, hnew, hno, howes.not.2 hw]
  | lookup right i m key code hth' hkey hfind hrole' hraid hnew hev =>
    refine .stay (by rw [hsh, hraid]) (spared_keep hth hp' ?_) (condemned_keep hth hp' ?_)
      (launched_keep (by simp [hev]))
    · simp [hev, hnew, hth', hrole', RaidRole.Answers]
    · simp [hev, hnew, hth', hrole', RaidRole.Owes]
  | clear right i m key hth' hkey hraid hrole' hnew hev =>
    rw [hth'] at hrole
    obtain ⟨rfl, hne, hentry⟩ := hrole
    have hl : Launched (hist ++ ev) n k ↔ Launched hist n k := launched_keep (by simp [hev])
    have hno : ¬ th.role.Answers n k ∧ ¬ th.role.Owes n k := by
      simp [hth', RaidRole.Answers, RaidRole.Owes]
    -- the entry of another key stays
    have hother : ¬ (n = p.shared.raid.serial ∧ k = key) →
        (Waiting p'.shared.raid n k ↔ Waiting p.shared.raid n k) := by
      intro hnk
      have hmem : n = p.shared.raid.serial → k ≠ Key.empty →
          (k ∈ (raidClear p.shared.raid i).pending ↔ k ∈ p.shared.raid.pending) := by
        intro hn hk
        rw [mem_clear hk]
        constructor
        · rintro ⟨j, -, hj⟩
          exact List.mem_of_getElem? hj
        · intro hmem
          obtain ⟨j, hj⟩ := List.getElem?_of_mem hmem
          refine ⟨j, ?_, hj⟩
          rintro rfl
          rcases hentry with hentry | ⟨-, -, hentry⟩
          · rw [hj] at hentry
            exact hnk ⟨hn, Option.some.inj hentry⟩
          · exact hk (hentry k hj)
      rw [hsh, hraid]
      constructor
      · rintro ⟨hn, hk, hmem'⟩
        exact ⟨hn, hk, (hmem hn.symm hk).1 hmem'⟩
      · rintro ⟨hn, hk, hmem'⟩
        exact ⟨hn, hk, (hmem hn.symm hk).2 hmem'⟩
    -- the key that answered: spared by the right code, condemned by a wrong one
    by_cases hnk : n = p.shared.raid.serial ∧ k = key
    · obtain ⟨rfl, rfl⟩ := hnk
      have hw' : ¬ Waiting p'.shared.raid p.shared.raid.serial k := by
        rintro ⟨-, -, hk⟩
        rw [hsh, hraid, mem_clear hne] at hk
        obtain ⟨j, hji, hj⟩ := hk
        rcases hentry with hentry | ⟨-, hcond, -⟩
        · exact hji (hI.single j i k hj hentry hne)
        · exact (hI.placed _ k).waitingCondemned ⟨rfl, hne, List.mem_of_getElem? hj⟩ hcond
      cases right with
      | true =>
        have hw : Waiting p.shared.raid p.shared.raid.serial k := by
          rcases hentry with hentry | ⟨hright, -⟩
          · exact ⟨rfl, hne, List.mem_of_getElem? hentry⟩
          · cases hright
        have hno' : ¬ th'.role.Owes p.shared.raid.serial k := by
          rw [hrole']
          exact id
        have hc : Condemned p' (hist ++ ev) p.shared.raid.serial k ↔
            Condemned p hist p.shared.raid.serial k :=
          condemned_keep hth hp' (by simp [hev, hnew, hno', hno.2])
        subst hp'
        exact .spare hw hw' (.inr ((Pool.exists_mem_step hth).2 (.inl hrole'))) hc hl
      | false =>
        have hno' : ¬ th'.role.Answers p.shared.raid.serial k := by
          rw [hrole']
          exact nofun
        have hs : Spared p' (hist ++ ev) p.shared.raid.serial k ↔
            Spared p hist p.shared.raid.serial k :=
          spared_keep hth hp' (by simp [hev, hnew, hno', hno.1])
        have howes : th'.role.Owes p.shared.raid.serial k := by
          rw [hrole']
          exact ⟨rfl, List.mem_singleton_self k⟩
        subst hp'
        refine .condemn ?_ hw' hs (.inr ((Pool.exists_mem_step hth).2 (.inl howes))) hl
        rcases hentry with hentry | ⟨-, hcond, -⟩
        · exact .inl ⟨rfl, hne, List.mem_of_getElem? hentry⟩
        · exact .inr hcond
    · refine .stay (hother hnk) (spared_keep hth hp' ?_) (condemned_keep hth hp' ?_) hl
      · have hno' : ¬ th'.role.Answers n k := by
          rw [hrole']
          split_ifs
          · intro he
            cases he
            exact hnk ⟨rfl, rfl⟩
          · exact nofun
        simp [hev, hnew, hno', hno.1]
      · have hno' : ¬ th'.role.Owes n k := by
          rw [hrole']
          split_ifs
          · exact id
          · rintro ⟨hn, hk⟩
            exact hnk ⟨hn.symm, List.mem_singleton.1 hk⟩
        simp [hev, hnew, hno', hno.2]
  | answer m key hth' hrole' hraid hnew hev =>
    refine .stay (by rw [hsh, hraid]) (spared_keep hth hp' ?_) (condemned_keep hth hp' ?_)
      (launched_keep (by simp [hev]))
    · simp [hev, hnew, hth', hrole', RaidRole.Answers, eq_comm]
    · simp [hev, hnew, hth', hrole', RaidRole.Owes]
  | find m key rest hth' hraid hnew hev hfind =>
    have hrole' := found_of_owes hI hth hth' hfind
    refine .stay (by rw [hsh, hraid]) (spared_keep hth hp' ?_) (condemned_keep hth hp' ?_)
      (launched_keep (by simp [hev]))
    · simp [hev, hnew, hrole']
    · simp [hev, hnew, hrole']
  | burn m key off rest hth' htarget hraid hrole' hnew hev =>
    have hkey := hI.targets th (List.mem_of_getElem? hth) m key off htarget
    rw [hkey] at hev
    refine .stay (by rw [hsh, hraid]) (spared_keep hth hp' ?_) (condemned_keep hth hp' ?_)
      (launched_keep (by simp [hev]))
    · simp [hev, hnew, hth', hrole', RaidRole.Answers]
    · simp [hev, hnew, hth', hrole', RaidRole.Owes]
      tauto

theorem condemned_mono {hist' : List RaidEvent} (h : LedgerStep p hist p' hist' n k)
    (hc : Condemned p hist n k) : Condemned p' hist' n k := by
  cases h with
  | stay _ _ hc' _ | launch _ _ _ hc' _ | spare _ _ _ hc' _ => exact hc'.2 hc
  | condemn _ _ _ hc' _ => exact hc'

/-- Raids are numbered in order. -/
theorem serial_step (h : RaidStep s th s' th' new ev)
    (hs : ∀ n keys, .launched n keys ∈ hist → n ≤ s.raid.serial) :
    ∀ n keys, .launched n keys ∈ hist ++ ev → n ≤ s'.raid.serial := by
  have hkeep : s'.raid.serial = s.raid.serial → (∀ n keys, .launched n keys ∉ ev) →
      ∀ n keys, .launched n keys ∈ hist ++ ev → n ≤ s'.raid.serial := by
    intro hserial hev n keys hmem
    rw [hserial]
    rcases List.mem_append.1 hmem with hmem | hmem
    · exact hs n keys hmem
    · exact absurd hmem (hev n keys)
  cases h with
  | launch keys hkeys h0 now rand hraid hth hrole hnew hev =>
    obtain ⟨-, hserial, -, -⟩ := launch_eq_some hraid
    intro n keys' hmem
    rw [hserial]
    rcases List.mem_append.1 hmem with hmem | hmem
    · exact (hs n keys' hmem).trans (Nat.le_succ _)
    · rw [hev, List.mem_singleton] at hmem
      cases hmem
      exact le_rfl
  | burn m key off rest hth htarget hraid hrole hnew hev =>
    refine hkeep (by rw [hraid]) fun n keys hmem => ?_
    rw [hev, Option.mem_toList] at hmem
    obtain ⟨_, -, he⟩ := Option.map_eq_some_iff.1 hmem
    cases he
  | quiet hraid _ _ hev | timer _ _ _ _ hraid hev | lookup _ _ _ _ _ _ _ _ _ hraid _ hev
  | answer _ _ _ _ hraid _ hev | find _ _ _ _ hraid _ hev _ =>
    exact hkeep (congrArg Raid.serial hraid) (by simp [hev])
  | cancel _ _ hraid _ hev | timeout _ _ hraid _ _ hev | clear _ _ _ _ _ _ hraid _ _ hev =>
    exact hkeep (by simp [hraid, raidTimeout, raidClear]) (by simp [hev])

/-- What a step does to the entries of the table: they are replaced in a launch, and otherwise they
stay or are cleared. -/
theorem pending_step (h : RaidStep s th s' th' new ev) :
    (∃ keys, th.raidKeys s = some keys ∧ s.raid.deadline = 0 ∧ s'.raid.deadline ≠ 0 ∧
      s'.raid.pending = keys ++ List.replicate (maxClients - keys.length) Key.empty) ∨
    ∀ (i : ℕ) (k : Key), s'.raid.pending[i]? = some k →
      s.raid.pending[i]? = some k ∨ k = Key.empty := by
  cases h with
  | launch keys hkeys h0 now rand hraid =>
    obtain ⟨-, -, hd, hpending⟩ := launch_eq_some hraid
    exact .inl ⟨keys, hkeys, h0, hd, hpending⟩
  | timeout _ _ hraid =>
    refine .inr fun i k hi => .inr ?_
    rw [hraid] at hi
    simp only [raidTimeout, List.getElem?_map, Option.map_eq_some_iff] at hi
    obtain ⟨_, -, rfl⟩ := hi
    rfl
  | clear right i₀ _ _ _ _ hraid =>
    refine .inr fun i k hi => ?_
    rw [hraid, raidClear, List.getElem?_set] at hi
    split_ifs at hi
    · cases hi
      exact .inr rfl
    · exact .inl hi
  | cancel _ _ hraid =>
    refine .inr fun i k hi => .inl ?_
    rw [hraid] at hi
    exact hi
  | quiet hraid | timer _ _ _ _ hraid | lookup _ _ _ _ _ _ _ _ _ hraid | answer _ _ _ _ hraid
  | find _ _ _ _ hraid | burn _ _ _ _ _ _ hraid =>
    exact .inr fun i k hi => .inl (hraid ▸ hi)

theorem raidKeys_nodup {l : Label} (hG : RaidGuard p l) {keys : List Key}
    (h : th.raidKeys p.shared = some keys) : keys.Nodup := by
  cases th with
  | session sock key pc =>
    cases pc with
    | selfRaid q => cases q <;> cases h; exact List.nodup_singleton key
    | _ => cases h
  | event v pc =>
    cases pc with
    | raid q => cases q <;> cases h; exact hG.clients
    | _ => cases h
  | _ => cases h

/-- Keys stay single in the table. -/
theorem single_step (hI : RaidInv p hist) (hG : RaidGuard p (.run t c))
    (h : RaidStep p.shared th s' th' new ev) (i j : ℕ) (k : Key)
    (hi : s'.raid.pending[i]? = some k) (hj : s'.raid.pending[j]? = some k) (hne : k ≠ Key.empty) :
    i = j := by
  rcases pending_step h with ⟨keys, hkeys, -, -, hpending⟩ | hkeep
  · have hlt : ∀ x : ℕ, s'.raid.pending[x]? = some k → keys[x]? = some k := by
      intro x hx
      rw [hpending, List.getElem?_append] at hx
      split_ifs at hx
      · exact hx
      · exact absurd (List.eq_of_mem_replicate (List.mem_of_getElem? hx)) hne
    have hi' := hlt i hi
    exact (List.getElem?_inj (List.getElem?_eq_some_iff.1 hi').1 (raidKeys_nodup hG hkeys)).1
      (hi'.trans (hlt j hj).symm)
  · exact hI.single i j k ((hkeep i k hi).resolve_right hne) ((hkeep j k hj).resolve_right hne) hne

/-- A closed raid has no open entries. -/
theorem closed_step (hI : RaidInv p hist) (hth : p.threads[t]? = some th)
    (h : RaidStep p.shared th s' th' new ev) (h0 : s'.raid.deadline = 0) :
    ∀ k ∈ s'.raid.pending, k = Key.empty := by
  have hkeep : (p.shared.raid.deadline = 0) → ∀ k ∈ s'.raid.pending, k = Key.empty := by
    intro hd k hk
    rcases pending_step h with ⟨keys, -, -, hd', -⟩ | hkeep
    · exact absurd h0 hd'
    · obtain ⟨i, hi⟩ := List.getElem?_of_mem hk
      exact (hkeep i k hi).elim (fun hi => hI.closed hd k (List.mem_of_getElem? hi)) id
  cases h with
  | launch keys hkeys _ now rand hraid => exact absurd h0 (launch_eq_some hraid).2.2.1
  | timeout _ _ hraid =>
    intro k hk
    rw [hraid] at hk
    obtain ⟨_, -, rfl⟩ := List.mem_map.1 hk
    rfl
  | cancel hth' _ hraid =>
    have hrole := hI.roles th (List.mem_of_getElem? hth)
    rw [hth'] at hrole
    rw [hraid]
    exact hrole.2
  | clear _ _ _ _ _ _ hraid => exact hkeep (by rw [hraid] at h0; exact h0)
  | quiet hraid | timer _ _ _ _ hraid | lookup _ _ _ _ _ _ _ _ _ hraid | answer _ _ _ _ hraid
  | find _ _ _ _ hraid | burn _ _ _ _ _ _ hraid => exact hkeep (hraid ▸ h0)

theorem closes_rests {r : RaidRole} (h : r.Rests) : r.closes = none := by
  rcases h with rfl | ⟨m, rfl⟩ <;> rfl

/-- Whoever has to close the raid finds it open. -/
theorem open_of_closes (hI : RaidInv p hist) {u : Thread} (hu : u ∈ p.threads) {x : Unit}
    (h : u.role.closes = some x) : p.shared.raid.deadline ≠ 0 := by
  have hok := hI.roles u hu
  revert hok h
  cases u.role with
  | cancelling => exact fun _ hok => hok.1
  | closing n => exact fun _ hok => hok.2
  | _ => exact fun h => by cases h

/-- One thread has to close the raid. -/
theorem closers_step (hI : RaidInv p hist) (hth : p.threads[t]? = some th)
    (h : RaidStep p.shared th s' th' new ev) :
    Pool.InjOn (fun u => u.role.closes) (p.threads.set t th' ++ new) := by
  have hset : (∀ x, th'.role.closes = some x → th.role.closes = some x) →
      Pool.InjOn (fun u => u.role.closes) (p.threads.set t th') :=
    fun hx => hI.closers.set hth fun x hx' => .inl (hx x hx')
  cases h with
  | quiet _ hrole hnew _ =>
    refine Pool.InjOn.append (hset fun x hx => ?_) fun u hu => by simp only [hnew u hu]; rfl
    rcases hrole with hrole | ⟨-, hrole⟩
    · rwa [← hrole]
    · rw [closes_rests hrole] at hx
      cases hx
  | launch keys _ h0 now rand _ _ hrole hnew _ =>
    subst hnew
    rw [List.append_nil]
    exact hI.closers.set hth fun x _ => .inr fun v hv hx => open_of_closes hI hv hx h0
  | timer m hth' hrole hnew _ _ =>
    subst hnew
    refine (hset fun x hx => by rw [hrole] at hx; cases hx).concat fun x _ v hv hx => ?_
    obtain ⟨j, hj⟩ := List.getElem?_of_mem hv
    rw [List.getElem?_set] at hj
    split_ifs at hj with hjt hlt
    · cases hj
      rw [hrole] at hx
      cases hx
    · exact hjt (hI.closers t j th v () hth hj (congrArg RaidRole.closes hth') hx)
  | cancel _ hrole _ hnew _ | answer _ _ _ hrole _ hnew _ | burn _ _ _ _ _ _ _ hrole hnew _
  | lookup _ _ _ _ _ _ _ _ hrole _ hnew _ =>
    subst hnew
    rw [List.append_nil]
    exact hset fun x hx => by rw [hrole] at hx; cases hx
  | timeout _ _ _ hrole hnew _ =>
    subst hnew
    rw [List.append_nil]
    refine hset fun x hx => ?_
    rcases hrole with hrole | ⟨-, hrole⟩ <;> rw [hrole] at hx <;> cases hx
  | clear right _ _ _ _ _ _ hrole hnew _ =>
    subst hnew
    rw [List.append_nil]
    refine hset fun x hx => ?_
    rw [hrole] at hx
    split_ifs at hx <;> cases hx
  | find _ _ _ hth' _ hnew _ hfind =>
    subst hnew
    rw [List.append_nil]
    exact hset fun x hx => by rwa [← found_of_owes hI hth hth' hfind]

/-- An open raid is not forgotten. -/
theorem closer_step (hI : RaidInv p hist) (hth : p.threads[t]? = some th)
    (h : RaidStep p.shared th s' th' new ev) (hd : s'.raid.deadline ≠ 0) :
    ∃ u ∈ p.threads.set t th' ++ new, u.role.closes = some () := by
  rw [Pool.exists_mem_step hth]
  have hkeep : p.shared.raid.deadline ≠ 0 → (th.role.closes = some () →
      th'.role.closes = some () ∨ ∃ u ∈ new, u.role.closes = some ()) →
      th'.role.closes = some () ∨ (∃ u ∈ new, u.role.closes = some ()) ∨
      ∃ j u, j ≠ t ∧ p.threads[j]? = some u ∧ u.role.closes = some () := by
    intro hd hcl
    rcases (Pool.exists_mem hth).1 (hI.closer hd) with hown | hother
    · exact (hcl hown).imp_right .inl
    · exact .inr (.inr hother)
  cases h with
  | quiet hraid hrole _ _ =>
    refine hkeep (hraid ▸ hd) fun hcl => .inl ?_
    rcases hrole with hrole | ⟨hrole, -⟩
    · rwa [hrole]
    · rw [closes_rests hrole] at hcl
      cases hcl
  | launch keys _ _ _ _ _ _ hrole =>
    rcases hrole with ⟨hrole, -⟩ | hrole <;> exact .inl (congrArg RaidRole.closes hrole)
  | timer m _ _ hnew hraid =>
    refine hkeep (hraid ▸ hd) fun _ => .inr ?_
    rw [hnew]
    exact ⟨_, List.mem_singleton_self _, rfl⟩
  | cancel _ _ hraid | timeout _ _ hraid =>
    rw [hraid] at hd
    exact absurd rfl hd
  | clear _ _ _ _ hth' _ hraid =>
    refine hkeep (by rw [hraid] at hd; exact hd) fun hcl => ?_
    rw [hth'] at hcl
    cases hcl
  | lookup _ _ _ _ _ hth' _ _ _ hraid | answer _ _ hth' _ hraid | find _ _ _ hth' hraid
  | burn _ _ _ _ hth' _ hraid =>
    refine hkeep (hraid ▸ hd) fun hcl => ?_
    rw [hth'] at hcl
    cases hcl

/-! ### Roles -/

theorem ok_rests {r : RaidRole} (h : r.Rests) : r.Ok p hist := by
  rcases h with rfl | ⟨m, rfl⟩ <;> trivial

/-- A role stays as it is while the raid does. -/
theorem ok_of_same {hist' : List RaidEvent} {r : RaidRole}
    (hraid : p'.shared.raid = p.shared.raid)
    (hc : ∀ n k, Condemned p hist n k → Condemned p' hist' n k) (h : r.Ok p hist) :
    r.Ok p' hist' := by
  cases r with
  | cancelling | closing n =>
    simp only [RaidRole.Ok, hraid] at h ⊢
    exact h
  | rollback => exact h.elim
  | clearing right i n key =>
    simp only [RaidRole.Ok, hraid] at h ⊢
    exact ⟨h.1, h.2.1, h.2.2.imp_right fun h => ⟨h.1, hc _ _ h.2.1, h.2.2⟩⟩
  | _ => trivial

theorem sessionKey_of_clearing {right : Bool} {i : ℕ} (h : th.role = .clearing right i n key) :
    th.sessionKey = some key := by
  cases th with
  | session sock key' pc =>
    cases pc with
    | minigame code q => cases q <;> cases h <;> rfl
    | selfRaid q => cases q <;> cases h
    | _ => cases h
  | event v pc =>
    cases pc with
    | raid q => cases q <;> cases h
    | _ => cases h
  | raidTimeout serial pc => cases pc <;> cases h
  | _ => cases h

theorem launches_of_raidKeys {keys : List Key} (ha : th.action = some a)
    (h : th.raidKeys s = some keys) : a.op.launches = true := by
  cases th with
  | session sock key pc =>
    cases pc with
    | selfRaid q => cases q <;> cases h; cases ha; rfl
    | _ => cases h
  | event v pc =>
    cases pc with
    | raid q => cases q <;> cases h; cases ha; rfl
    | _ => cases h
  | _ => cases h

theorem raidLookup_eq_some {r : Raid} {now i : ℕ} {code : Bytes}
    (h : raidLookup r now key = some (i, code, n)) :
    n = r.serial ∧ key ≠ Key.empty ∧ r.pending[i]? = some key := by
  simp only [raidLookup] at h
  split_ifs at h
  obtain ⟨j, hj, he⟩ := Option.map_eq_some_iff.1 h
  cases he
  obtain ⟨hlt, hp, -⟩ := List.findIdx?_eq_some_iff_getElem.1 hj
  simp only [Bool.and_eq_true, bne_iff_ne, beq_iff_eq] at hp
  exact ⟨rfl, hp.2 ▸ hp.1, by rw [List.getElem?_eq_getElem hlt, hp.2]⟩

/-- The roles of the other threads. -/
theorem roles_frame (hI : RaidInv p hist) (hG : RaidGuard p (.run t c))
    (hth : p.threads[t]? = some th) (ha : th.action = some a)
    (hp' : p' = ⟨s', p.threads.set t th' ++ new⟩)
    (h : RaidStep p.shared th s' th' new ev) {j : ℕ} {u : Thread} (hj : j ≠ t)
    (hu : p.threads[j]? = some u) : u.role.Ok p' (hist ++ ev) := by
  have hc : ∀ n k, Condemned p hist n k → Condemned p' (hist ++ ev) n k :=
    fun n k => condemned_mono (ledger_step hI hG hth hp' h n k)
  have hsh : p'.shared = s' := by rw [hp']
  have hmem := List.mem_of_getElem? hu
  have hok := hI.roles u hmem
  have hcloses : ∀ {x}, u.role.closes = some x → th.role.closes = some x → False :=
    fun hx hx' => hj (hI.closers j t u th _ hu hth hx hx')
  cases h with
  | quiet hraid | timer _ _ _ _ hraid | lookup _ _ _ _ _ _ _ _ _ hraid | answer _ _ _ _ hraid
  | find _ _ _ _ hraid | burn _ _ _ _ _ _ hraid => exact ok_of_same (by rw [hsh, hraid]) hc hok
  | launch keys hkeys h0 =>
    -- a new raid while an answer is being cleared is what the guard excludes
    have hclears := hG.launch a.op (opAt_run hth ha) (launches_of_raidKeys ha hkeys) h0 u hmem
    revert hok hclears
    cases u.role with
    | cancelling => exact fun hok _ => absurd h0 hok.1
    | closing n => exact fun hok _ => absurd h0 hok.2
    | clearing right i n key => exact fun _ hclears => by cases hclears
    | rollback => exact fun hok _ => hok.elim
    | _ => exact fun _ _ => trivial
  | cancel hth' _ hraid =>
    have hclosing : th.role.closes = some () := congrArg RaidRole.closes hth'
    revert hok hcloses
    cases u.role with
    | cancelling | closing n => exact fun _ hcloses => (hcloses rfl hclosing).elim
    | clearing right i n key =>
      rintro ⟨hn, hne, hentry⟩ -
      have hraid' : p'.shared.raid = { p.shared.raid with deadline := 0 } := by rw [hsh, hraid]
      simp only [RaidRole.Ok, hraid']
      exact ⟨hn, hne, hentry.imp_right fun h => ⟨h.1, hc _ _ h.2.1, h.2.2⟩⟩
    | rollback => exact fun hok _ => hok.elim
    | _ => exact fun _ _ => trivial
  | timeout m hth' hraid hrole' =>
    have hclosing : th.role.closes = some () := by
      rw [hth']
      rfl
    have hok' := hI.roles th (List.mem_of_getElem? hth)
    have hsnap : a.op.snapshots = true := by
      subst hth'
      cases ha
      rfl
    have hright := hG.timeout a.op (opAt_run hth ha) hsnap u hmem
    revert hok hcloses hright
    cases u.role with
    | cancelling | closing n => exact fun _ hcloses _ => (hcloses rfl hclosing).elim
    | clearing right i n key =>
      rintro ⟨rfl, hne, hentry⟩ - hright
      obtain rfl : m = p.shared.raid.serial := by
        rw [hth'] at hok'
        exact hok'.1
      have hraid' : p'.shared.raid = (raidTimeout p.shared.raid).2 := by rw [hsh, hraid]
      -- a wrong answer caught by the timeout is condemned by it
      have hcond : Condemned p' (hist ++ ev) p.shared.raid.serial key := by
        rcases hentry with hentry | ⟨-, hcond, -⟩
        · have howes := (timeout_owes hrole').2 ⟨rfl, hne, List.mem_of_getElem? hentry⟩
          subst hp'
          exact .inr ((Pool.exists_mem_step hth).2 (.inl howes))
        · exact hc _ _ hcond
      simp only [RaidRole.Ok, hraid']
      refine ⟨rfl, hne, .inr ⟨hright, hcond, fun k hk => ?_⟩⟩
      simp only [raidTimeout, List.getElem?_map, Option.map_eq_some_iff] at hk
      obtain ⟨_, -, rfl⟩ := hk
      rfl
    | rollback => exact fun hok _ _ => hok.elim
    | _ => exact fun _ _ _ => trivial
  | clear right' i' m' key' hth' hkey' hraid =>
    have hraid' : p'.shared.raid = raidClear p.shared.raid i' := by rw [hsh, hraid]
    have hok' := hI.roles th (List.mem_of_getElem? hth)
    rw [hth'] at hok'
    have hset : ∀ (x : ℕ) (k : Key), (p.shared.raid.pending.set i' Key.empty)[x]? = some k →
        p.shared.raid.pending[x]? = some k ∨ k = Key.empty := by
      intro x k hx
      rw [List.getElem?_set] at hx
      split_ifs at hx
      · cases hx
        exact .inr rfl
      · exact .inl hx
    cases hrole : u.role with
    | cancelling =>
      rw [hrole] at hok
      simp only [RaidRole.Ok, hraid', raidClear]
      refine ⟨hok.1, fun k hk => ?_⟩
      obtain ⟨x, hx⟩ := List.getElem?_of_mem hk
      exact (hset x k hx).elim (fun hx => hok.2 k (List.mem_of_getElem? hx)) id
    | closing n =>
      rw [hrole] at hok
      simp only [RaidRole.Ok, hraid', raidClear]
      exact hok
    | clearing right i n key =>
      rw [hrole] at hok
      obtain ⟨hn, hne, hentry⟩ := hok
      have hkey : key ≠ key' := by
        rintro rfl
        exact hj (Pool.InjOn.of_nodup hG.sessions j t u th key hu hth (sessionKey_of_clearing hrole)
          hkey')
      simp only [RaidRole.Ok, hraid', raidClear]
      refine ⟨hn, hne, ?_⟩
      rcases hentry with hentry | ⟨hright, hcond, hempty⟩
      · -- two answers do not share an entry
        have hi : i' ≠ i := by
          rintro rfl
          rcases hok'.2.2 with hentry' | ⟨-, -, hentry'⟩
          · exact hkey (Option.some.inj (hentry.symm.trans hentry'))
          · exact hne (hentry' key hentry)
        exact .inl (by rw [List.getElem?_set_ne hi, hentry])
      · exact .inr ⟨hright, hc _ _ hcond, fun k hk => (hset i k hk).elim (hempty k) id⟩
    | rollback =>
      rw [hrole] at hok
      exact hok.elim
    | _ => trivial

/-- The role a step leads to. -/
theorem roles_own (hI : RaidInv p hist) (hG : RaidGuard p (.run t c))
    (hth : p.threads[t]? = some th) (hp' : p' = ⟨s', p.threads.set t th' ++ new⟩)
    (h : RaidStep p.shared th s' th' new ev) : th'.role.Ok p' (hist ++ ev) := by
  have hc : ∀ n k, Condemned p hist n k → Condemned p' (hist ++ ev) n k :=
    fun n k => condemned_mono (ledger_step hI hG hth hp' h n k)
  have hsh : p'.shared = s' := by rw [hp']
  have hok := hI.roles th (List.mem_of_getElem? hth)
  cases h with
  | quiet hraid hrole =>
    rcases hrole with hrole | ⟨-, hrole⟩
    · exact hrole ▸ ok_of_same (by rw [hsh, hraid]) hc hok
    · exact ok_rests hrole
  | launch keys hkeys h0 now rand hraid _ hrole =>
    obtain ⟨-, hserial, hd, hpending⟩ := launch_eq_some hraid
    rcases hrole with ⟨hrole, rfl⟩ | hrole <;> rw [hrole]
    · refine ⟨hsh ▸ hd, fun k hk => ?_⟩
      rw [hsh, hpending] at hk
      exact List.eq_of_mem_replicate hk
    · exact ⟨hsh ▸ hserial.symm, hsh ▸ hd⟩
  | lookup right i m key code _ _ hfind hrole hraid =>
    obtain ⟨rfl, hne, hentry⟩ := raidLookup_eq_some hfind
    have hraid' : p'.shared.raid = p.shared.raid := by rw [hsh, hraid]
    rw [hrole]
    simp only [RaidRole.Ok, hraid']
    exact ⟨trivial, hne, .inl hentry⟩
  | timeout _ _ _ hrole => rcases hrole with hrole | ⟨-, hrole⟩ <;> rw [hrole] <;> trivial
  | clear right _ _ _ _ _ _ hrole =>
    rw [hrole]
    split_ifs <;> trivial
  | find _ _ _ hth' _ _ _ hfind =>
    rw [found_of_owes hI hth hth' hfind, hth']
    trivial
  | cancel _ hrole | timer _ _ hrole | answer _ _ _ hrole | burn _ _ _ _ _ _ _ hrole =>
    rw [hrole]
    trivial

theorem roles_new (hI : RaidInv p hist) (hth : p.threads[t]? = some th)
    (hp' : p' = ⟨s', p.threads.set t th' ++ new⟩) (h : RaidStep p.shared th s' th' new ev)
    {u : Thread} (hu : u ∈ new) : u.role.Ok p' (hist ++ ev) := by
  cases h with
  | quiet _ _ hnew =>
    rw [hnew u hu]
    trivial
  | timer m hth' _ hnew hraid =>
    rw [hnew, List.mem_singleton] at hu
    have hok := hI.roles th (List.mem_of_getElem? hth)
    have hraid' : p'.shared.raid = p.shared.raid := by rw [hp', hraid]
    rw [hth'] at hok
    rw [hu, timer_role]
    simp only [RaidRole.Ok, hraid']
    exact hok
  | launch _ _ _ _ _ _ _ _ hnew | cancel _ _ _ hnew | timeout _ _ _ _ hnew
  | lookup _ _ _ _ _ _ _ _ _ _ hnew | clear _ _ _ _ _ _ _ _ hnew | answer _ _ _ _ _ hnew
  | find _ _ _ _ _ hnew | burn _ _ _ _ _ _ _ _ hnew =>
    rw [hnew] at hu
    cases hu

/-! ### Records of the keys in use -/

/-- A slot keeps its key, or gets the key of a login, or is cleared. -/
theorem clients_step (h : ConnStep s th s' th' new) {cl : Client} (hcl : cl ∈ s'.clients) :
    cl.key = Key.empty ∨ (∃ cl₀ ∈ s.clients, cl₀.key = cl.key) ∨ th.account = some cl.key := by
  have hold : s'.clients = s.clients → cl.key = Key.empty ∨
      (∃ cl₀ ∈ s.clients, cl₀.key = cl.key) ∨ th.account = some cl.key :=
    fun hs => .inr (.inl ⟨cl, hs ▸ hcl, rfl⟩)
  cases h with
  | quiet hclients | accept _ _ _ _ _ _ hclients | reject _ _ _ hclients
  | check _ _ _ _ _ hclients | close _ _ _ _ hclients => exact hold hclients
  | add sock _ _ _ hclients =>
    obtain ⟨⟨cl₀, cs⟩, hu, he⟩ := Option.map_eq_some_iff.1 hclients
    obtain rfl : cs = s'.clients := he
    rcases mem_updateFirst hu hcl with rfl | hcl
    · exact .inr (.inl ⟨cl₀, (mem_of_updateFirst hu).1, rfl⟩)
    · exact .inr (.inl ⟨cl, hcl, rfl⟩)
  | register sock key rec hth _ hclients =>
    rcases hu : updateFirst (fun cl : Client => cl.sock == sock) (fun cl => { cl with key := key })
        s.clients with _ | ⟨cl₀, cs⟩
    · exact hold (by simp [hclients, clientRegister, hu])
    · have hcs : s'.clients = cs := by simp [hclients, clientRegister, hu]
      rcases mem_updateFirst hu (hcs ▸ hcl) with rfl | hcl
      · exact .inr (.inr (by rw [hth]; rfl))
      · exact .inr (.inl ⟨cl, hcl, rfl⟩)
  | remove sock _ _ hclients =>
    rcases hu : updateFirst (fun cl : Client => cl.sock == sock) (fun _ => {}) s.clients with
      _ | ⟨cl₀, cs⟩
    · exact hold (by simp [hclients, clientRemove, hu])
    · have hcs : s'.clients = cs := by simp [hclients, clientRemove, hu]
      rcases mem_updateFirst hu (hcs ▸ hcl) with rfl | hcl
      · exact .inl rfl
      · exact .inr (.inl ⟨cl, hcl, rfl⟩)

/-- Where a key to be burned comes from. -/
theorem owes_step (hI : RaidInv p hist) (hth : p.threads[t]? = some th)
    (h : RaidStep p.shared th s' th' new ev) (howes : th'.role.Owes n k) :
    th.role.Owes n k ∨ Waiting p.shared.raid n k ∨ th.sessionKey = some k := by
  cases h with
  | quiet _ hrole =>
    rcases hrole with hrole | ⟨-, hrole⟩
    · exact .inl (hrole ▸ howes)
    · exact absurd howes (owes_rests hrole)
  | timeout m hth' _ hrole =>
    have hok := hI.roles th (List.mem_of_getElem? hth)
    rw [hth'] at hok
    obtain rfl : m = p.shared.raid.serial := hok.1
    exact .inr (.inl ((timeout_owes hrole).1 howes))
  | clear right _ _ key _ hkey _ hrole =>
    rw [hrole] at howes
    cases right with
    | true => exact howes.elim
    | false => exact .inr (.inr (List.mem_singleton.1 howes.2 ▸ hkey))
  | find _ _ _ hth' _ _ _ hfind => exact .inl (found_of_owes hI hth hth' hfind ▸ howes)
  | burn m key off rest hth' _ _ hrole =>
    rw [hrole] at howes
    exact .inl (hth' ▸ ⟨howes.1, List.mem_cons_of_mem _ howes.2⟩)
  | launch _ _ _ _ _ _ _ hrole =>
    rcases hrole with ⟨hrole, -⟩ | hrole <;> rw [hrole] at howes <;> exact howes.elim
  | cancel _ hrole | timer _ _ hrole | lookup _ _ _ _ _ _ _ _ hrole | answer _ _ _ hrole =>
    rw [hrole] at howes
    exact howes.elim

theorem account_of_sessionKey (h : th.sessionKey = some k) : th.account = some k := by
  cases th <;> first | exact h | cases h

/-- The victims of a launch are in a slot, or launch the raid themselves. -/
theorem raidKeys_cases {keys : List Key} (h : th.raidKeys s = some keys) (hk : k ∈ keys) :
    (∃ cl ∈ s.clients, cl.key = k) ∨ th.sessionKey = some k := by
  cases th with
  | session sock key pc =>
    cases pc with
    | selfRaid q =>
      cases q <;> cases h
      exact .inr (congrArg some (List.mem_singleton.1 hk).symm)
    | _ => cases h
  | event v pc =>
    cases pc with
    | raid q =>
      cases q <;> cases h
      obtain ⟨cl, hcl, rfl⟩ := List.mem_map.1 hk
      exact .inl ⟨cl, (List.mem_filter.1 hcl).1, rfl⟩
    | _ => cases h
  | _ => cases h

theorem known_step (hI : RaidInv p hist) (hth : p.threads[t]? = some th) (ha : th.action = some a)
    {r : a.op.Ret} (hr : a.op.exec p.shared c = some (s', r))
    (hp' : p' = ⟨s', p.threads.set t (a.next r) ++ a.op.spawned r⟩)
    (h : RaidStep p.shared th s' (a.next r) (a.op.spawned r) ev) (k : Key) (hk : InUse p' k) :
    ∃ r ∈ p'.shared.users, r.key = k := by
  have hA := hI.accounts.thread t th hth
  have hkeep : (∃ r ∈ p.shared.users, r.key = k) → ∃ r ∈ p'.shared.users, r.key = k := by
    subst hp'
    exact record_kept hA (users_step ha ⟨r, hr, rfl⟩)
  refine hkeep ?_
  have hsession : th.sessionKey = some k → ∃ r ∈ p.shared.users, r.key = k :=
    fun h => hA.known k (account_of_sessionKey h)
  subst hp'
  rcases hk with ⟨hne, ⟨cl, hcl, rfl⟩ | hmem⟩ | ⟨u, hu, n, howes⟩
  · rcases clients_step (conn_step ha hr) hcl with hempty | hold | haccount
    · exact absurd hempty hne
    · exact hI.known _ (.inl ⟨hne, .inl hold⟩)
    · exact hA.known _ haccount
  · rcases pending_step h with ⟨keys, hkeys, -, -, hpending⟩ | hkeep
    · rw [hpending, List.mem_append, List.mem_replicate] at hmem
      rcases raidKeys_cases hkeys (hmem.resolve_right fun h => hne h.2) with hcl | hkey
      · exact hI.known k (.inl ⟨hne, .inl hcl⟩)
      · exact hsession hkey
    · obtain ⟨i, hi⟩ := List.getElem?_of_mem hmem
      exact hI.known k (.inl ⟨hne, .inr (List.mem_of_getElem? ((hkeep i k hi).resolve_right hne))⟩)
  · rcases (Pool.exists_mem_step (Q := fun u => u.role.Owes n k) hth).1
      ⟨u, hu, howes⟩ with hown | ⟨v, hv, hnew⟩ | ⟨j, v, -, hv, hold⟩
    · rcases owes_step hI hth h hown with hown | ⟨-, hne, hwait⟩ | hkey
      · exact hI.known k (.inr ⟨th, List.mem_of_getElem? hth, n, hown⟩)
      · exact hI.known k (.inl ⟨hne, .inr hwait⟩)
      · exact hsession hkey
    · cases h with
      | quiet _ _ hidle =>
        rw [hidle v hv] at hnew
        exact hnew.elim
      | timer m _ _ hspawn =>
        rw [hspawn, List.mem_singleton] at hv
        rw [hv, timer_role] at hnew
        exact hnew.elim
      | launch _ _ _ _ _ _ _ _ hno | cancel _ _ _ hno | timeout _ _ _ _ hno
      | lookup _ _ _ _ _ _ _ _ _ _ hno | clear _ _ _ _ _ _ _ _ hno | answer _ _ _ _ _ hno
      | find _ _ _ _ _ hno | burn _ _ _ _ _ _ _ _ hno =>
        rw [hno] at hv
        cases hv
    · exact hI.known k (.inr ⟨v, List.mem_of_getElem? hv, n, hold⟩)

/-! ### The run -/

/-- **The invariant is kept.** -/
theorem raidInv_step {l : Label} (hI : RaidInv p hist) (hG : RaidGuard p l)
    (h : server.next p l = some p') : RaidInv p' (hist ++ raidEventsAt p l) := by
  have hA := accounts_step hI.accounts hG.db h
  cases l with
  | env e =>
    obtain rfl := Pool.next_env.1 h
    rw [show raidEventsAt p (.env e) = [] from rfl, List.append_nil]
    refine ⟨hA, fun n k => ?_, hI.serial, hI.single, hI.closed, hI.roles, hI.closer, hI.closers,
      hI.known, hI.targets⟩
    obtain ⟨h₁, h₂, h₃, h₄⟩ := hI.placed n k
    exact ⟨h₁, h₂, h₃, h₄⟩
  | run t c =>
    obtain ⟨th, a, r, hth, ha, hr, hthreads⟩ := server_run h
    have hmem := List.mem_of_getElem? hth
    have hroll : th.role ≠ .rollback := by
      intro hroll
      have hok := hI.roles th hmem
      rw [hroll] at hok
      exact hok
    have hev : raidEventsAt p (.run t c) = th.raidEvents p.shared c.ok := by
      simp [raidEventsAt, threadAt, hth, choiceOf]
    have hworks := fun hraids => hG.works th hth hraids a.op (opAt_run hth ha)
    have hstep := raid_step ha hworks hroll hr
    have hp' : p' = ⟨p'.shared, p.threads.set t (a.next r) ++ a.op.spawned r⟩ := by
      rw [← hthreads]
    rw [hev]
    -- a thread after the step: one that slept, the one that ran, or a new one
    have hcases : ∀ {j : ℕ} {u : Thread}, p'.threads[j]? = some u →
        (j ≠ t ∧ p.threads[j]? = some u) ∨ (j = t ∧ u = a.next r) ∨ u ∈ a.op.spawned r := by
      intro j u hu
      rw [hthreads] at hu
      exact Pool.getElem?_step hu
    refine ⟨hA, fun n k => placed_step (hI.placed n k) (ledger_step hI hG hth hp' hstep n k),
      serial_step hstep hI.serial, single_step hI hG hstep, closed_step hI hth hstep, ?_, ?_, ?_,
      known_step hI hth ha hr hp' hstep, ?_⟩
    · intro u hu
      obtain ⟨j, hj⟩ := List.getElem?_of_mem hu
      rcases hcases hj with ⟨hjt, hold⟩ | ⟨-, rfl⟩ | hnew
      · exact roles_frame hI hG hth ha hp' hstep hjt hold
      · exact roles_own hI hG hth hp' hstep
      · exact roles_new hI hth hp' hstep hnew
    · rw [hthreads]
      exact closer_step hI hth hstep
    · rw [hthreads]
      exact closers_step hI hth hstep
    · intro u hu n k off htarget
      have hA' := hI.accounts.thread t th hth
      have hle := users_keys_le hA' (users_step ha ⟨r, hr, rfl⟩) (i := off) (k := k)
      refine hle ?_
      obtain ⟨j, hj⟩ := List.getElem?_of_mem hu
      rcases hcases hj with ⟨-, hold⟩ | ⟨-, rfl⟩ | hnew
      · exact hI.targets u (List.mem_of_getElem? hold) n k off htarget
      · obtain ⟨rec, hf⟩ := raidBurn_step ha ⟨r, hr, rfl⟩ htarget
        obtain ⟨hrec, hkey, -⟩ := userdbFind_eq_some.1 hf
        exact keyAt_eq_some.2 ⟨rec, hrec, hkey⟩
      · obtain ⟨x, rfl⟩ | ⟨sock, -, rfl⟩ := spawned_start hnew
        · cases x <;> cases htarget
        · cases htarget

theorem raidInv_boot (cwd : Dir) (files : Files) (users : UserDb) (clock : ℕ) :
    RaidInv (boot cwd files users clock) [] := by
  have hmain : ∀ u ∈ (boot cwd files users clock).threads, u = .main .marketInit :=
    fun u hu => List.mem_singleton.1 hu
  have hpending : ∀ k ∈ (boot cwd files users clock).shared.raid.pending, k = Key.empty :=
    fun k hk => List.eq_of_mem_replicate hk
  have hw : ∀ n k, ¬ Waiting (boot cwd files users clock).shared.raid n k :=
    fun n k h => h.2.1 (hpending k h.2.2)
  have hs : ∀ n k, ¬ Spared (boot cwd files users clock) [] n k := by
    rintro n k (h | ⟨u, hu, h⟩)
    · cases h
    · rw [hmain u hu] at h
      cases h
  have hc : ∀ n k, ¬ Condemned (boot cwd files users clock) [] n k := by
    rintro n k (h | ⟨u, hu, h⟩)
    · cases h
    · rw [hmain u hu] at h
      exact h.elim
  refine ⟨accounts_boot cwd files users clock, fun n k => ⟨⟨nofun, ?_⟩, fun h => absurd h (hw n k),
    fun h => absurd h (hw n k), fun h => absurd h (hs n k)⟩, nofun, ?_, fun _ =>
      hpending, ?_, ?_, ?_,
    ?_, ?_⟩
  · rintro (h | h | h)
    · exact absurd h (hw n k)
    · exact absurd h (hs n k)
    · exact absurd h (hc n k)
  · intro i j k hi _ hne
    exact absurd (hpending k (List.mem_of_getElem? hi)) hne
  · intro u hu
    rw [hmain u hu]
    trivial
  · exact fun hd => absurd rfl hd
  · intro i j u v x hi _ hx
    rw [hmain u (List.mem_of_getElem? hi)] at hx
    cases hx
  · rintro k (⟨hne, ⟨cl, hcl, rfl⟩ | hk⟩ | ⟨u, hu, n, howes⟩)
    · rw [List.eq_of_mem_replicate hcl] at hne
      exact absurd rfl hne
    · exact absurd (hpending k hk) hne
    · rw [hmain u hu] at howes
      exact howes.elim
  · intro u hu n k off h
    rw [hmain u hu] at h
    cases h

/-! ### One outcome for each victim -/

theorem RaidInv.outcome (hI : RaidInv p hist) : RaidOutcome p hist where
  notBoth n k hok hburned := (hI.placed n k).sparedCondemned (.inl hok) (.inl hburned)
  one n keys k hmem hk := by
    rcases (hI.placed n k).launched.1 ⟨keys, hmem, hk⟩ with hw | (hok | ⟨u, hu, h⟩) |
      (hburned | ⟨u, hu, h⟩)
    · exact .inl (.inl hw)
    · exact .inr (.inl hok)
    · exact .inl (.inr ⟨u, hu, .inl h⟩)
    · exact .inr (.inr hburned)
    · exact .inl (.inr ⟨u, hu, .inr h⟩)
  only n k h := (hI.placed n k).launched.2
    (.inr (h.elim (fun h => .inl (.inl h)) fun h => .inr (.inl h)))
  attended n k hw := by
    obtain ⟨rfl, hne, hk⟩ := hw
    obtain ⟨u, hu, hcloses⟩ := hI.closer fun h0 => hne (hI.closed h0 k hk)
    have hok := hI.roles u hu
    cases hrole : u.role with
    | closing m =>
      rw [hrole] at hok
      exact ⟨u, hu, hok.1 ▸ hrole⟩
    | cancelling =>
      rw [hrole] at hok
      exact absurd (hok.2 k hk) hne
    | _ =>
      rw [hrole] at hcloses
      cases hcloses
  own u hu right i n key hrole j k hj hne := by
    have hok := hI.roles u hu
    rw [hrole] at hok
    by_cases hij : i = j
    · subst hij
      rcases hok.2.2 with hentry | ⟨-, -, hempty⟩
      · exact .inr ⟨Option.some.inj (hj.symm.trans hentry), hok.1.symm⟩
      · exact absurd (hempty k hj) hne
    · exact .inl (by rw [raidClear, List.getElem?_set_ne hij, hj])

/-- **Every raid target gets exactly one outcome** in guarded runs. -/
theorem raidOutcome_of_guard {cwd : Dir} {files : Files} {users : UserDb} {clock : ℕ}
    {q : Server × List RaidEvent}
    (hq : raidServer.Reach (fun q l => RaidGuard q.1 l) (boot cwd files users clock, []) q) :
    RaidOutcome q.1 q.2 :=
  (hq.invariant (I := fun q => RaidInv q.1 q.2) (raidInv_boot cwd files users clock)
    fun q l q' _ hI hG hn => by
      obtain ⟨hn, hhist⟩ := System.withHistory_next.1 hn
      rw [hhist]
      exact raidInv_step hI hG hn).outcome

/-- Alice raids herself; the timer of the raid begins to wait. -/
def raidScript : List Label :=
  startUp ++ connect 5 ++ logIn 2 (Key.ofBytes (utf8 "alice")) ++ receive 2 .triggerRaid ::
    steps 2 3 ++ steps 3 1

/-- She answers in time. -/
def answerScript : List Label :=
  raidScript ++ receive 2 (.minigameSubmit (utf8 "pUrge")) :: steps 2 3 ++ .env 15 :: steps 3 2

theorem raidOutcome_alice : ∃ q,
    raidServer.Reach (fun q l => RaidGuard q.1 l) (freshBoot, []) q ∧
    q.2 = [.launched 1 [Key.ofBytes (utf8 "alice")], .ok 1 (Key.ofBytes (utf8 "alice"))] ∧
    RaidOutcome q.1 q.2 := by
  obtain ⟨q, hq, hf⟩ := raidServer.exists_reach_of_any (fun q l => RaidGuard q.1 l)
    (freshBoot, []) answerScript (fun q => q.2 == [.launched 1 [Key.ofBytes (utf8 "alice")],
      .ok 1 (Key.ofBytes (utf8 "alice"))]) (by decide +kernel)
  exact ⟨q, hq, eq_of_beq hf, raidOutcome_of_guard hq⟩

/-- She answers in time, but the timeout comes between the lookup and the clear. -/
def lateScript : List Label :=
  raidScript ++ receive 2 (.minigameSubmit (utf8 "pUrge")) :: steps 2 1 ++ .env 15 :: steps 3 4 ++
    steps 2 2

/-- Without the guard she is confirmed and burned. -/
theorem not_raidOutcome : ∃ q,
    raidServer.Reach System.anyStep (freshBoot, []) q ∧ ¬ RaidOutcome q.1 q.2 := by
  obtain ⟨q, hq, hf⟩ := raidServer.exists_reach_of_any System.anyStep (freshBoot, []) lateScript
    (fun q => decide (.ok 1 (Key.ofBytes (utf8 "alice")) ∈ q.2) &&
      decide (.burned 1 (Key.ofBytes (utf8 "alice")) ∈ q.2)) (by decide +kernel)
  rw [Bool.and_eq_true, decide_eq_true_eq, decide_eq_true_eq] at hf
  exact ⟨q, hq, fun h => h.notBoth 1 _ hf.1 hf.2⟩

end UnderFlow
