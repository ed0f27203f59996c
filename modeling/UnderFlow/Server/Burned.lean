import UnderFlow.Server.Records
import UnderFlow.Server.Listings

/-!
# Burned accounts

A burned record has the balance `-1`.  Nothing in the server protects it: a handler that read the
record before the burn writes its copy back, `handle_fake_rich` fills any purse, and a sale credits
whatever its last lookup finds.

* `StaysBurned` : a burned record is still burned, and its key is refused.
* `BurnGuard` : no burn falls between the reading and the writing of a copy, and neither
  `handle_fake_rich` nor a sale reads a burned record.
* `staysBurned_of_guard` : in runs under this guard, burned means burned for ever.
* `not_staysBurned` : without it, a burned player refills the purse.
-/

namespace UnderFlow

variable {s s' : Shared} {c : Choice} {th th' : Thread} {a : Action Thread} {off : ℕ} {key : Key}

/-! ### Burned records -/

/-- The offset of the record an operation burns. -/
def Op.burns : Op → Option ℕ
  | .userdbBurnAt off => some off
  | _ => none

/-- The step burns the record at the offset. -/
def BurnsAt (p : Server) (l : Label) (off : ℕ) : Prop :=
  (opAt p l).bind Op.burns = some off ∧ (choiceOf l).ok = true

instance (p : Server) (l : Label) (off : ℕ) : Decidable (BurnsAt p l off) :=
  inferInstanceAs (Decidable (_ ∧ _))

/-- A login of the key that looks the record up is refused. -/
def Refused (p : Server) (key : Key) : Prop :=
  ∀ t c p' sock, p.threads[t]? = some (.login sock (.lookup key)) → DbOk p (.run t c) →
    server.next p (.run t c) = some p' →
    ∃ reason, p'.threads[t]? = some (.login sock (.refuse .keyBurned reason))

/-- A burn of the record at the offset in the state `p` still stands in the state `q`: the record
has its key and the balance `-1`, and the key is refused. -/
def StaysBurned (p q : Server) (off : ℕ) : Prop :=
  ∃ rec, q.shared.users[off]? = some rec ∧ keyAt p.shared.users off = some rec.key ∧
    rec.money = -1 ∧ Refused q rec.key

/-- The key whose record a thread is about to look up in order to pay, with no test of its
balance. -/
def Thread.enriches : Thread → Option Key
  | .session _ key (.fakeRich .lookup) => some key
  | .session _ key (.sell _ _ (.lookup _ _)) => some key
  | _ => none

/-- When a burn lasts: the lookups of logins and sales succeed, no burn falls between the reading
and the writing of a copy of the record, and neither `handle_fake_rich` nor the last lookup of a
sale finds a burned record. -/
structure BurnGuard (p : Server) (l : Label) : Prop where
  db : DbOk p l
  copies : ∀ off ∈ (opAt p l).bind Op.burns, ∀ th ∈ p.threads, ∀ copy ∈ th.copy,
    copy.2 = off → copy.1.money = -1
  enriched : ∀ th ∈ threadAt p l, ∀ key ∈ th.enriches, ∀ found ∈ userdbFind p.shared.users key,
    found.1.money ≠ -1

instance (p : Server) (l : Label) : Decidable (BurnGuard p l) :=
  decidable_of_iff (_ ∧ _ ∧ _) ⟨fun h => ⟨h.1, h.2.1, h.2.2⟩, fun h => ⟨h.db, h.copies, h.enriched⟩⟩

/-! ### The victims of a burn -/

/-- The record a raid is about to burn. -/
def Burn.target : Burn → Option ℕ
  | .burn off => some off
  | _ => none

/-- The record a bankruptcy check is about. -/
def Bankruptcy.target : Bankruptcy → Option ℕ
  | .count off | .burn off => some off
  | _ => none

/-- The offset of the record a thread is about to burn. -/
def Thread.target : Thread → Option ℕ
  | .session _ _ (.bankruptcy pc) => pc.target
  | .session _ _ (.minigame _ (.burn _ pc)) => pc.target
  | .raidTimeout _ (.burn _ _ pc) => pc.target
  | _ => none

theorem Action.Within.burns_ne {β : Type} {a : Action β} {l : List Store} {fd : Option ℕ}
    (h : a.Within l fd) (hl : Store.users ∉ l) : a.op.burns ≠ some off := by
  have ho : a.op.store ≠ some .users := h.store_ne hl
  intro hb
  cases hop : a.op <;> rw [hop] at hb <;> cases hb
  exact ho (by rw [hop]; rfl)

theorem burnUserByKey_target {k : Key} {pc : Burn}
    (h : (burnUserByKey k pc).op.burns = some off) : pc.target = some off := by
  cases pc with
  | burn off => exact h
  | purge pc => exact absurd h ((purgeDocsIn_within (.user k) pc).burns_ne (by simp))
  | _ => cases h

theorem clientLoop_target {sock : ℕ} {pc : Command}
    (h : (clientLoop sock key pc).op.burns = some off) :
    (Thread.session sock key pc).target = some off := by
  cases pc with
  | bankruptcy q => cases q <;> first | exact h | cases h
  | minigame code q =>
    cases q with
    | burn serial q => exact burnUserByKey_target (k := key) h
    | _ => cases h
  | buy d q => cases q <;> cases h
  | sell n ds q => cases q <;> cases h
  | rumor k q =>
    cases q with
    | inventory q => exact absurd h ((handleInventory_within sock key q).burns_ne (by simp))
    | _ => cases h
  | payoff q =>
    cases q with
    | purge e rec off q => exact absurd h ((purgeDocsIn_within (.user key) q).burns_ne (by simp))
    | roundEnd q => exact absurd h ((fireRoundEndCountdown_within _ q).burns_ne (by simp))
    | _ => cases h
  | fakeRich q =>
    cases q with
    | list rec q => exact absurd h ((sandboxList_within key q).burns_ne (by simp))
    | _ => cases h
  | dispose d q => exact absurd h ((handleDispose_within sock key d q).burns_ne (by simp))
  | inventory q => exact absurd h ((handleInventory_within sock key q).burns_ne (by simp))
  | selfRaid q => exact absurd h ((fireSelfPoliceRaid_within sock key q).burns_ne (by simp))
  | leak q => exact absurd h ((firePublicLeak_within q).burns_ne (by simp))
  | endround q => exact absurd h ((fireRoundEndCountdown_within _ q).burns_ne (by simp))
  | _ => cases h

theorem triggerRoundReset_not_burns {pc : Reset} :
    (triggerRoundReset pc).op.burns ≠ some off := by
  intro h
  cases pc with
  | masterPurge pc => exact (purgeDocsIn_within .master pc).burns_ne (by simp) h
  | userPurge name todo pc => exact (purgeDocsIn_within (.entry name) pc).burns_ne (by simp) h
  | seed pc => exact (seedMarketAndNpc_within pc).burns_ne (by simp) h
  | _ => cases h

/-- A thread that burns a record knows its offset. -/
theorem burns_target (ha : th.action = some a) (h : a.op.burns = some off) :
    th.target = some off := by
  cases th with
  | session sock key pc =>
    cases ha
    exact clientLoop_target h
  | raidTimeout serial pc =>
    cases ha
    cases pc with
    | burn key todo pc => exact burnUserByKey_target (k := key) h
    | _ => cases h
  | roundEndTimer pc =>
    cases ha
    cases pc with
    | reset pc => exact absurd h triggerRoundReset_not_burns
    | _ => cases h
  | login sock pc => cases ha; cases pc <;> cases h
  | main pc => cases ha; exact absurd h ((mainThread_within pc).burns_ne (by simp))
  | disconnect sock pc =>
    cases ha; exact absurd h ((clientDisconnect_within sock pc).burns_ne (by simp))
  | event v pc => cases ha; exact absurd h ((eventThreadFunc_within v pc).burns_ne (by simp))
  | npcSequence pc => cases ha; exact absurd h ((eventDoNpcSequence_within pc).burns_ne (by simp))
  | leakRecovery mask dur pc =>
    cases ha; exact absurd h ((leakRecoveryThread_within mask dur pc).burns_ne (by simp))
  | finished => cases ha

/-- The record a thread is about to burn is the one a lookup of its key finds. -/
theorem target_step (ha : th.action = some a) (h : a.Steps s c s' th')
    (ht : th'.target = some off) :
    th.target = some off ∨ ∃ key rec, userdbFind s.users key = some (rec, off) := by
  -- both a wrong answer and the timeout burn through `burn_user_by_key`
  have hburn : ∀ {k : Key} {q q' : Burn}, (burnUserByKey k q).Steps s c s' (.cont q') →
      q'.target = some off → ∃ key rec, userdbFind s.users key = some (rec, off) := by
    intro k q q' hq hq'
    cases q with
    | lookup =>
      obtain ⟨r, hr, hn⟩ := hq
      obtain ⟨-, ⟨-, p, hp, rfl⟩ | ⟨-, rfl⟩⟩ := exec_find hr <;> cases hn
      · cases hq'
        exact ⟨k, p.1, hp⟩
      · cases hq'
    | purge q =>
      obtain ⟨m, -, hn⟩ := Action.steps_map.1 hq
      rcases m with _ | _ | _ <;> cases hn <;> cases hq'
    | _ =>
      obtain ⟨r, -, hn⟩ := hq
      cases hn
      try cases hq'
  have ho := thread_origin ha h
  cases th' with
  | session sock key pc' =>
    obtain ⟨pc, rfl, hs⟩ | ⟨rfl, -⟩ := ho
    · cases pc' with
      | bankruptcy q' =>
        obtain rfl | ⟨q, rfl, hq⟩ := session_origin hs
        · cases ht
        · cases q with
          | lookup =>
            obtain ⟨r, hr, hn⟩ := hq
            obtain ⟨-, ⟨-, p, hp, rfl⟩ | ⟨-, rfl⟩⟩ := exec_find hr
            · simp only [checkBankruptcy] at hn
              split_ifs at hn
              cases hn
              cases ht
              exact .inr ⟨key, p.1, hp⟩
            · cases hn
          | count off =>
            obtain ⟨r, -, hn⟩ := hq
            simp only [checkBankruptcy] at hn
            split at hn
            · cases hn
            · split_ifs at hn
              cases hn
              exact .inl ht
          | _ =>
            obtain ⟨r, -, hn⟩ := hq
            cases hn
            try cases ht
      | minigame code q' =>
        obtain ⟨rfl, -⟩ | ⟨q, rfl, hq⟩ := session_origin hs
        · cases ht
        · cases q with
          | burn serial q =>
            obtain ⟨m, hm, hn⟩ := Action.steps_map.1 hq
            rcases m with m' | _ | _ <;> cases hn
            exact .inr (hburn hm ht)
          | lookup =>
            obtain ⟨r, -, hn⟩ := hq
            simp only [handleMinigameSubmit] at hn
            split at hn
            · cases hn
            · split_ifs at hn <;> cases hn <;> cases ht
          | _ =>
            obtain ⟨r, -, hn⟩ := hq
            cases hn
            try cases ht
      | _ => cases ht
    · cases ht
  | raidTimeout serial pc' =>
    obtain ⟨pc, rfl, hs⟩ := ho
    cases pc with
    | burn key todo q =>
      obtain ⟨m, hm, hn⟩ := Action.steps_map.1 hs
      rcases m with m' | _ | _
      · cases hn
        exact .inr (hburn hm ht)
      · cases todo <;> cases hn
        cases ht
      · cases todo <;> cases hn
        cases ht
    | snapshot =>
      obtain ⟨r, -, hn⟩ := hs
      cases r <;> cases hn
      cases ht
    | _ =>
      obtain ⟨r, -, hn⟩ := hs
      cases hn
      cases ht
  | _ => cases ht

/-! ### Before the burn -/

/-- A lookup of a key keeps finding the same offset. -/
theorem find_step (hA : Account s th) (hu : UsersStep s.users th s'.users) {rec : UserRecord}
    (h : userdbFind s.users key = some (rec, off)) :
    ∃ rec', userdbFind s'.users key = some (rec', off) := by
  refine userdbFind_congr h fun j hj => ?_
  have hlt : off < s.users.length := (List.getElem?_eq_some_iff.1 (userdbFind_eq_some.1 h).1).1
  have hk : keyAt s.users j = some s.users[j].key :=
    keyAt_eq_some.2 ⟨_, List.getElem?_eq_getElem (hj.trans_lt hlt), rfl⟩
  rw [hk, users_keys_le hA hu hk]

/-- A copy of a burned record is held by an escape at most, before it is decided; and a thread about
to burn a record has found it by its key. -/
structure Burning (s : Shared) (th : Thread) : Prop where
  copy : ∀ rec off, th.copy = some (rec, off) → rec.money = -1 → th.undecided = true
  target : ∀ off, th.target = some off → ∃ key rec, userdbFind s.users key = some (rec, off)

/-- The invariant of guarded runs. -/
structure BurnInv (p : Server) : Prop where
  accounts : Accounts p
  priced : Priced p
  burning : Pool.Inv (fun _ => True) Burning p

/-- A copy with a burned balance can only have been read by an escape. -/
theorem copy_burned {p : Server} {t : ℕ} (hI : BurnInv p) (hG : BurnGuard p (.run t c))
    (hth : p.threads[t]? = some th) (ha : th.action = some a) (h : a.Steps p.shared c s' th')
    {rec : UserRecord} (hc : th'.copy = some (rec, off)) (hm : rec.money = -1) :
    th'.undecided = true := by
  have hgoal := hI.priced.shared.2
  cases copy_step ha h hc with
  | kept rec₀ hcopy hkey hmoney hdec =>
    rcases hmoney with rfl | hmoney
    · have hle := hdec ((hI.burning.thread t th hth).copy rec off hcopy hm)
      omega
    · omega
  | buy sock key docId slot hth' hfind hmoney =>
    have hprice : 0 ≤ slot.basePrice := (hth' ▸ hI.priced.thread t th hth) slot rfl
    omega
  | sell sock key npcId docIds npc sold hth' hfind =>
    exact absurd hm (hG.enriched th hth key (by rw [hth']; rfl) (rec, off) hfind)
  | rumor sock key target now hth' hfind hmoney =>
    have hfee : (0 : ℤ) ≤ rumorFee := by decide
    omega
  | fakeRich sock key hth' hfind =>
    exact absurd hm (hG.enriched th hth key (by rw [hth']; rfl) (rec, off) hfind)
  | payoff sock key hth' hfind hdec => exact hdec

theorem burnInv_step {p p' : Server} {l : Label} (hI : BurnInv p) (hG : BurnGuard p l)
    (h : server.next p l = some p') : BurnInv p' := by
  refine ⟨accounts_step hI.accounts hG.db h, priced_step hI.priced h, ?_⟩
  cases l with
  | env e =>
    exact Pool.inv_env hI.burning h trivial fun th hth => ⟨hth.copy, hth.target⟩
  | run t c =>
    have hkeep : ∀ {th a} {r : a.op.Ret} {sh off}, p.threads[t]? = some th → th.action = some a →
        a.op.exec p.shared c = some (sh, r) →
        (∃ key rec, userdbFind p.shared.users key = some (rec, off)) →
        ∃ key rec, userdbFind sh.users key = some (rec, off) := by
      rintro th a r sh off hth ha hr ⟨key, rec, hf⟩
      have hu : UsersStep p.shared.users th sh.users := users_step ha ⟨r, hr, rfl⟩
      obtain ⟨rec', hf'⟩ := find_step (hI.accounts.thread t th hth) hu hf
      exact ⟨key, rec', hf'⟩
    refine Pool.inv_run hI.burning h (fun th sh th' new hth hs => ?_)
      fun th sh th' new hth hs j u _ _ hu => ?_
    · obtain ⟨a, r, ha, hr, rfl, rfl⟩ := threadStep_eq_some.1 hs
      refine ⟨trivial, ⟨fun rec off hc hm => copy_burned hI hG hth ha ⟨r, hr, rfl⟩ hc hm,
        fun off ht => hkeep hth ha hr ?_⟩, fun u hu => ?_⟩
      · exact (target_step ha ⟨r, hr, rfl⟩ ht).elim ((hI.burning.thread t th hth).target off) id
      · obtain ⟨n, rfl⟩ | ⟨sock, -, rfl⟩ := spawned_start hu
        · cases n <;> exact ⟨nofun, nofun⟩
        · exact ⟨nofun, nofun⟩
    · obtain ⟨a, r, ha, hr, rfl, rfl⟩ := threadStep_eq_some.1 hs
      exact ⟨hu.copy, fun off ht => hkeep hth ha hr (hu.target off ht)⟩

theorem burnInv_boot (cwd : Dir) (files : Files) (users : UserDb) (clock : ℕ) :
    BurnInv (boot cwd files users clock) where
  accounts := accounts_boot cwd files users clock
  priced := priced_boot cwd files users clock
  burning := ⟨trivial, fun t th h => by
    obtain rfl := List.mem_singleton.1 (List.mem_of_getElem? h)
    exact ⟨nofun, nofun⟩⟩

/-! ### After the burn -/

/-- The record a lookup of the key finds at the offset is burned, and so is every copy of it. -/
abbrev Dead (key : Key) (off : ℕ) : Server → Prop := Pool.Inv
  (fun s => ∃ rec, userdbFind s.users key = some (rec, off) ∧ rec.money = -1)
  (fun _ th => ∀ rec, th.copy = some (rec, off) → rec.money = -1)

/-- A burned record stays burned in a step of a thread all whose copies of it are burned. -/
theorem users_burned {rec : UserRecord} (hu : UsersStep s.users th s'.users)
    (hA : Account s th) (hB : Burning s th) (hcopy : ∀ rec, th.copy = some (rec, off) →
      rec.money = -1)
    (h : s.users[off]? = some rec) (hm : rec.money = -1) :
    ∃ rec', s'.users[off]? = some rec' ∧ rec'.money = -1 := by
  have hlt : off < s.users.length := (List.getElem?_eq_some_iff.1 h).1
  cases hu with
  | same hs => exact ⟨rec, by rw [hs, h], hm⟩
  | append sock key rec' hth hs =>
    exact ⟨rec, by rw [hs, List.getElem?_append_left hlt, h], hm⟩
  | update rec₀ off' rec' hc hdec hkey hs =>
    by_cases hoff : off' = off
    · subst hoff
      rw [hB.copy rec₀ off' hc (hcopy rec₀ hc)] at hdec
      cases hdec
    · exact ⟨rec, by rw [hs, List.getElem?_set_ne hoff, h], hm⟩
  | indeterminate hth => rw [hA.determinate] at hth; cases hth
  | burn off' hs =>
    rw [hs, userdbBurnAt, List.getElem?_modify, h]
    by_cases hoff : off' = off
    · exact ⟨rec.burn, by simp [hoff], rfl⟩
    · exact ⟨rec, by simp [hoff], hm⟩
  | reset hs =>
    rw [hs, userdbResetRound, List.getElem?_map, h]
    exact ⟨rec, by rw [Option.map_some, reset_of_burned hm], hm⟩

theorem dead_step {p p' : Server} {l : Label} (hI : BurnInv p) (hG : BurnGuard p l)
    (hD : Dead key off p) (h : server.next p l = some p') : Dead key off p' := by
  cases l with
  | env e => exact Pool.inv_env hD h hD.shared fun _ hth => hth
  | run t c =>
    refine Pool.inv_run hD h (fun th sh th' new hth hs => ?_) fun _ _ _ _ _ _ _ _ _ _ hu => hu
    obtain ⟨a, r, ha, hr, rfl, rfl⟩ := threadStep_eq_some.1 hs
    have hu : UsersStep p.shared.users th sh.users := users_step ha ⟨r, hr, rfl⟩
    obtain ⟨rec, hf, hm⟩ := hD.shared
    have hrec := (userdbFind_eq_some.1 hf).1
    refine ⟨?_, fun rec' hc => ?_, fun u hu => ?_⟩
    · obtain ⟨rec', hf'⟩ := find_step (hI.accounts.thread t th hth) hu hf
      obtain ⟨rec'', hrec'', hm''⟩ := users_burned hu (hI.accounts.thread t th hth)
        (hI.burning.thread t th hth) (hD.thread t th hth) hrec hm
      obtain rfl := Option.some.inj (((userdbFind_eq_some.1 hf').1).symm.trans hrec'')
      exact ⟨rec', hf', hm''⟩
    · have hread : ∀ k, userdbFind p.shared.users k = some (rec', off) → rec'.money = -1 := by
        intro k hk
        obtain rfl := Option.some.inj ((userdbFind_eq_some.1 hk).1.symm.trans hrec)
        exact hm
      cases copy_step ha ⟨r, hr, rfl⟩ hc with
      | kept rec₀ hcopy hkey hmoney hdec =>
        have hm₀ := hD.thread t th hth rec₀ hcopy
        have hgoal := hI.priced.shared.2
        have hund := (hI.burning.thread t th hth).copy rec₀ off hcopy hm₀
        have hle := hdec hund
        omega
      | buy _ _ _ _ _ hfind _ | sell _ _ _ _ _ _ _ hfind | rumor _ _ _ _ _ hfind _
      | fakeRich _ _ _ hfind | payoff _ _ _ hfind _ => exact hread _ hfind
    · obtain ⟨n, rfl⟩ | ⟨sock, -, rfl⟩ := spawned_start hu
      · cases n <;> exact nofun
      · exact nofun

theorem Op.burns_eq_some {o : Op} : o.burns = some off ↔ o = .userdbBurnAt off := by
  cases o <;> simp [Op.burns]

/-- A thread about to burn a record holds no copy. -/
theorem copy_of_target (h : th.target = some off) : th.copy = none := by
  cases th with
  | session sock key pc => cases pc <;> first | rfl | cases h
  | _ => rfl

/-- Right after a burn the record is dead. -/
theorem dead_of_burnsAt {p p' : Server} {l : Label} (hI : BurnInv p) (hG : BurnGuard p l)
    (hb : BurnsAt p l off) (h : server.next p l = some p') :
    ∃ key, keyAt p.shared.users off = some key ∧ Dead key off p' := by
  cases l with
  | env e => cases hb.1
  | run t c =>
    obtain ⟨th, ⟨op, next⟩, r, hth, ha, hr, hthreads⟩ := server_run h
    have hop : op.burns = some off := by simpa [opAt_run hth ha] using hb.1
    have htarget : th.target = some off := burns_target ha hop
    obtain ⟨key, rec, hf⟩ := (hI.burning.thread t th hth).target off htarget
    have hu : UsersStep p.shared.users th p'.shared.users := users_step ha ⟨r, hr, rfl⟩
    refine ⟨key, keyAt_eq_some.2 ⟨rec, (userdbFind_eq_some.1 hf).1, (userdbFind_eq_some.1 hf).2.1⟩,
      ?_, fun j u hu' rec' hc => ?_⟩
    · obtain ⟨rec', hf'⟩ := find_step (hI.accounts.thread t th hth) hu hf
      refine ⟨rec', hf', ?_⟩
      obtain rfl := Op.burns_eq_some.1 hop
      have hok : c.ok = true := hb.2
      simp only [Op.exec, hok, ↓reduceIte, Option.some.injEq, Prod.mk.injEq] at hr
      have hrec' := (userdbFind_eq_some.1 hf').1
      rw [← hr.1] at hrec'
      simp only [userdbBurnAt, List.getElem?_modify, (userdbFind_eq_some.1 hf).1,
        ↓reduceIte] at hrec'
      obtain rfl := Option.some.inj hrec'
      rfl
    · rw [hthreads] at hu'
      rcases Pool.getElem?_step hu' with ⟨-, hold⟩ | ⟨-, rfl⟩ | hnew
      · exact hG.copies off hb.1 u (List.mem_of_getElem? hold) (rec', off) hc rfl
      · cases copy_step ha ⟨r, hr, rfl⟩ hc with
        | kept rec₀ hcopy hkey hmoney hdec =>
          rw [copy_of_target htarget] at hcopy
          cases hcopy
        | buy _ _ _ _ hth' | sell _ _ _ _ _ _ hth' | rumor _ _ _ _ hth' | fakeRich _ _ hth'
        | payoff _ _ hth' =>
          rw [hth'] at htarget
          cases htarget
      · obtain ⟨n, rfl⟩ | ⟨sock, -, rfl⟩ := spawned_start hnew
        · cases n <;> cases hc
        · cases hc

theorem refused_of_dead {p : Server} (hD : Dead key off p) : Refused p key := by
  intro t c p' sock hth hok h
  obtain ⟨th, a, r, hth', ha, hr, hthreads⟩ := server_run h
  obtain rfl := Option.some.inj (hth.symm.trans hth')
  have hself : (p.threads.set t (a.next r) ++ a.op.spawned r)[t]? = some (a.next r) :=
    Pool.getElem?_step_self hth
  cases ha
  obtain ⟨rec, hf, hm⟩ := hD.shared
  obtain ⟨-, ⟨-, q, hq, rfl⟩ | ⟨hno, rfl⟩⟩ := exec_find hr
  · obtain rfl := Option.some.inj (hf.symm.trans hq)
    refine ⟨utf8 "파산/소각된 계정입니다.", ?_⟩
    rw [hthreads, hself]
    simp [Action.map, clientLogin, userdbIsBurned, hm]
  · rw [hno (hok.ok hth rfl)] at hf
    cases hf

/-! ### Scripts -/

/-- Alice is raided, answers wrongly, and is about to be burned. -/
def burnScript : List Label :=
  startUp ++ connect 5 ++ logIn 2 (Key.ofBytes (utf8 "alice")) ++ receive 2 .triggerRaid ::
    steps 2 3 ++ receive 2 (.minigameSubmit []) :: steps 2 3

/-- Executes a script up to a burn of the first record, the burn, and a script after it. -/
def burnRun (C : Server → Label → Prop) [∀ p l, Decidable (C p l)] (after : List Label)
    (f : Server → Bool) : Bool :=
  (server.run C freshBoot burnScript).any fun p =>
    decide (C p (.run 2 {})) && decide (BurnsAt p (.run 2 {}) 0) &&
      (server.next p (.run 2 {})).any fun p₁ => (server.run C p₁ after).any f

theorem exists_of_burnRun (C : Server → Label → Prop) [∀ p l, Decidable (C p l)]
    (after : List Label) (f : Server → Bool) (h : burnRun C after f = true) :
    ∃ p p₁ p₂, server.Reach C freshBoot p ∧ C p (.run 2 {}) ∧ BurnsAt p (.run 2 {}) 0 ∧
      server.next p (.run 2 {}) = some p₁ ∧ server.Reach C p₁ p₂ ∧ f p₂ = true := by
  obtain ⟨p, hp, h⟩ := server.exists_reach_of_any C freshBoot burnScript _ h
  simp only [Bool.and_eq_true, decide_eq_true_eq] at h
  obtain ⟨⟨hC, hb⟩, h⟩ := h
  obtain ⟨p₁, hn, h⟩ := (Option.any_eq_true _ _).1 h
  obtain ⟨p₂, hp₂, hf⟩ := server.exists_reach_of_any C p₁ after f h
  exact ⟨p, p₁, p₂, hp, hC, hb, hn, hp₂, hf⟩

/-- The burned player tries to escape and to sabotage somebody. -/
def afterScript : List Label :=
  steps 2 2 ++ receive 2 (.chat (utf8 "/payoff")) :: steps 2 3 ++
    receive 2 (.rumor Key.empty) :: steps 2 4

/-- The burned player asks for a full purse. -/
def refillScript : List Label := steps 2 2 ++ receive 2 .triggerRich :: steps 2 3

end UnderFlow
