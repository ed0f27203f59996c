import UnderFlow.Server.Ledger
import UnderFlow.Server.Documents
import UnderFlow.Server.RoundState

/-!
# Bankruptcy

An account with no money and no documents is bankrupt.  `check_bankruptcy` follows a purchase and a
rumor, but no other command.

* `Broke` : no money, and an empty sandbox.
* `CommandScope` : commands are processed one at a time, and the calls of the file system and of
  the database succeed; the other threads run at any time.
* `BankruptcyGuard` : no last document is taken from an account without money, but in a sale.
* `neverMissed_of_guard` : then nobody stays broke after a command, and nobody else is burned.
* `not_neverMissed` : a player without money disposes of the last document.
-/

namespace UnderFlow

variable {s s' : Shared} {c : Choice} {th th' u : Thread} {a : Action Thread} {o : Op}
  {key : Key} {sock off : ℕ} {rec : UserRecord} {m : ℤ} {d : Dir}

/-! ### Broke accounts -/

/-- The sandbox of the key holds no document. -/
def SandboxEmpty (s : Shared) (key : Key) : Prop := s.files.docs (userDir s.cwd key.bytes) = []

instance (s : Shared) (key : Key) : Decidable (SandboxEmpty s key) :=
  inferInstanceAs (Decidable (_ = []))

/-- The account is not burned, has no money and holds no document. -/
def Broke (s : Shared) (key : Key) : Prop :=
  balanceOf s.users key = some 0 ∧ SandboxEmpty s key

/-- The thread is processing a command. -/
def Thread.busy : Thread → Bool
  | .session _ _ .recv => false
  | .session _ _ _ => true
  | _ => false

/-- Nobody stays broke after a command, who was not so at the start, and `check_bankruptcy` burns
no other account. -/
structure NeverMissed (s₀ : Shared) (p : Server) : Prop where
  settled : (∀ u ∈ p.threads, u.busy = false) → ∀ sock key, .session sock key .recv ∈ p.threads →
    Broke p.shared key → Broke s₀ key
  spared : ∀ sock key off, .session sock key (.bankruptcy (.burn off)) ∈ p.threads →
    ∃ rec, userdbFind p.shared.users key = some (rec, off) ∧ rec.money ≤ 0 ∧
      SandboxEmpty p.shared key
  burned : ∀ sock key, .session sock key (.bankruptcy .send) ∈ p.threads →
    balanceOf p.shared.users key = some (-1)

/-! ### When it holds -/

/-- The calls of the file system and of the database. -/
def Op.onDisk : Op → Bool
  | .stat _ _ | .rename _ _ _ | .unlink _ _ | .read _ _ | .writeMaster _ | .mkdir _ | .opendir _
  | .opendirUsers | .sandboxCount _ | .userdbFind _ | .userdbAppend _ | .userdbUpdateAt _ _
  | .userdbBurnAt _ | .userdbResetRound _ => true
  | _ => false

/-- The sandbox an operation counts. -/
def Op.counts : Op → Option Key
  | .sandboxCount key => some key
  | _ => none

/-- Commands are processed one at a time, and the calls of the file system and of the database
succeed. -/
structure CommandScope (p : Server) (l : Label) : Prop where
  oneByOne : ∀ th ∈ threadAt p l, th.waits = true → ∀ u ∈ p.threads, u.busy = false
  disk : ∀ o ∈ opAt p l, o.onDisk = true → (choiceOf l).ok = true
  counted : ∀ o ∈ opAt p l, ∀ k ∈ o.counts, userDir p.shared.cwd k.bytes ∈ p.shared.files.dirs

/-- The operation takes the last document out of the directory. -/
def Op.takesLast (s : Shared) (d : Dir) : Op → Bool
  | .unlink f docId | .rename f _ docId =>
    decide (f.dir s.cwd = d) && !(s.files.docs d).isEmpty &&
      (s.files.docs d).all fun e => e.1 == docId
  | _ => false

/-- The key whose documents the thread is selling. -/
def Thread.sellsFor : Thread → Option Key
  | .session _ key (.sell _ _ _) => some key
  | _ => none

/-- The key a session is checking for bankruptcy, once it has found no money. -/
def Thread.checking : Thread → Option Key
  | .session _ key (.bankruptcy (.count _)) | .session _ key (.bankruptcy (.burn _)) => some key
  | _ => none

/-- The bounty a sale is about to add to a copy of the balance, and its key. -/
def Thread.credits : Thread → Option (Key × ℤ)
  | .session _ key (.sell _ _ (.credit npc _ rec _)) =>
    some (key, wrapInt32 (rec.money + npc.bounty))
  | _ => none

/-- The operation gives every account the initial balance. -/
def Op.resetsRecords : Op → Bool
  | .userdbResetRound _ => true
  | _ => false

/-- Within the scope, no last document is taken from an account without money but in a sale of its
owner, no sale ends at a balance of `0`, and no account gets money or documents during its check. -/
structure BankruptcyGuard (p : Server) (l : Label) : Prop where
  scope : CommandScope p l
  last : ∀ th ∈ threadAt p l, ∀ o ∈ opAt p l, ∀ rec ∈ p.shared.users,
    balanceOf p.shared.users rec.key = some 0 →
      o.takesLast p.shared (userDir p.shared.cwd rec.key.bytes) = true →
        th.sellsFor = some rec.key
  credit : ∀ th ∈ threadAt p l, ∀ x ∈ th.credits, x.2 = 0 → ¬ SandboxEmpty p.shared x.1
  checks : ∀ o ∈ opAt p l, ∀ u ∈ p.threads, ∀ key ∈ u.checking,
    o.resetsRecords = false ∧
      (o.puts p.shared.cwd).map Prod.fst ≠ some (userDir p.shared.cwd key.bytes)

instance (p : Server) (l : Label) : Decidable (CommandScope p l) :=
  decidable_of_iff (_ ∧ _ ∧ _) ⟨fun h => ⟨h.1, h.2.1, h.2.2⟩,
    fun h => ⟨h.oneByOne, h.disk, h.counted⟩⟩

instance (p : Server) (l : Label) : Decidable (BankruptcyGuard p l) :=
  decidable_of_iff (_ ∧ _ ∧ _ ∧ _) ⟨fun h => ⟨h.1, h.2.1, h.2.2.1, h.2.2.2⟩,
    fun h => ⟨h.scope, h.last, h.credit, h.checks⟩⟩

/-! ### The files -/

/-- A directory that a removal empties. -/
theorem takesLast_of_del {fs : Files} {i : ℤ} (h : (fs.del d i).docs d = [])
    (hne : fs.docs d ≠ []) :
    (!(fs.docs d).isEmpty && (fs.docs d).all fun e => e.1 == i) = true := by
  rw [docs_del, if_pos rfl, List.filter_eq_nil_iff] at h
  rw [Bool.and_eq_true, List.all_eq_true]
  refine ⟨by simpa using hne, fun e he => ?_⟩
  simpa using h e he

/-- **How a directory gets empty**: an operation takes its last document. -/
theorem empty_step {r : o.Ret} (hW : s.files.Housed) (h : o.exec s c = some (s', r))
    (hempty : s'.files.docs d = []) : s.files.docs d = [] ∨ o.takesLast s d = true := by
  by_cases hne : s.files.docs d = []
  · exact .inl hne
  refine .inr ?_
  cases files_step h with
  | same hfs => exact absurd (hfs ▸ hempty) hne
  | write doc ho hfs =>
    rw [hfs, docs_put] at hempty
    split_ifs at hempty
    exact absurd hempty hne
  | mkdir f ho hfs =>
    simp only [Files.mkdir] at hfs
    split_ifs at hfs with hdir hparent
    · rw [← Option.some.inj hfs] at hempty
      exact absurd hempty hne
    · rw [← Option.some.inj hfs] at hempty
      by_cases hd : d = f.dir s.cwd
      · exact absurd (hW d (hd ▸ hdir)) hne
      · exact absurd (by simpa [Function.update_of_ne hd] using hempty) hne
  | remove f docId ho hfs =>
    rw [hfs, Files.unlink] at hempty
    split at hempty
    · exact absurd hempty hne
    · by_cases hd : d = f.dir s.cwd
      · subst hd
        rw [ho, Op.takesLast, decide_eq_true rfl, Bool.true_and]
        exact takesLast_of_del hempty hne
      · rw [docs_del, if_neg hd] at hempty
        exact absurd hempty hne
  | move src dst docId doc ho _ hfs =>
    rw [hfs, docs_put] at hempty
    split_ifs at hempty with hdst
    by_cases hd : d = src.dir s.cwd
    · subst hd
      rw [ho, Op.takesLast, decide_eq_true rfl, Bool.true_and]
      exact takesLast_of_del hempty hne
    · rw [docs_del, if_neg hd] at hempty
      exact absurd hempty hne

/-! ### The database -/

/-- What a thread writes back is a copy of its own record. -/
theorem copy_of_stores {rec' : UserRecord} (h : th.stores = some (off, rec')) :
    ∃ rec, th.copy = some (rec, off) ∧ rec'.key = rec.key := by
  cases th with
  | session sock key pc =>
    cases pc with
    | buy d q | sell n ds q | rumor k q | fakeRich q | payoff q =>
      cases q <;> first | (cases h; exact ⟨_, rfl, rfl⟩) | cases h
    | _ => cases h
  | _ => cases h

/-- The balance of a key, when records are rewritten and keep their keys. -/
theorem balanceOf_congr {db db' : UserDb} (hkeys : ∀ i, keyAt db' i = keyAt db i) (key : Key) :
    balanceOf db' key = (userdbFind db key).bind fun x => db'[x.2]?.map (·.money) := by
  rw [balanceOf]
  rcases hf : userdbFind db key with _ | ⟨rec, off⟩
  · have hnone : userdbFind db' key = none := by
      rw [userdbFind_eq_none] at hf ⊢
      intro r' hr' hk
      obtain ⟨i, hi⟩ := List.getElem?_of_mem hr'
      obtain ⟨r, hr, hrk⟩ := keyAt_eq_some.1 ((hkeys i).symm.trans (keyAt_eq_some.2 ⟨r', hi, hk⟩))
      exact hf r (List.mem_of_getElem? hr) hrk
    rw [hnone]
    rfl
  · obtain ⟨rec', hf'⟩ := userdbFind_congr hf fun j _ => hkeys j
    have hget : db'[off]? = some rec' := (userdbFind_eq_some.1 hf').1
    simp [hf', hget]

theorem balanceOf_burnAt (db : UserDb) (off : ℕ) (key : Key) :
    balanceOf (userdbBurnAt db off) key = balanceOf db key ∨
      balanceOf (userdbBurnAt db off) key = some (-1) := by
  rw [balanceOf_congr fun i => keyAt_burnAt i, balanceOf]
  rcases hf : userdbFind db key with _ | ⟨rec, off'⟩
  · exact .inl rfl
  · have hget : db[off']? = some rec := (userdbFind_eq_some.1 hf).1
    by_cases hoff : off = off'
    · exact .inr (by simp [userdbBurnAt, List.getElem?_modify, hget, hoff])
    · exact .inl (by simp [userdbBurnAt, List.getElem?_modify, hget, hoff])

/-- The record of a key is burned by its offset. -/
theorem balanceOf_burnAt_self {db : UserDb} (hf : userdbFind db key = some (rec, off)) :
    balanceOf (userdbBurnAt db off) key = some (-1) := by
  have hget : db[off]? = some rec := (userdbFind_eq_some.1 hf).1
  rw [balanceOf_congr fun i => keyAt_burnAt i, hf]
  simp [userdbBurnAt, List.getElem?_modify, hget]

theorem balanceOf_resetRound (db : UserDb) (key : Key) : balanceOf (userdbResetRound db m) key =
    (balanceOf db key).map fun b => if b = -1 then -1 else m := by
  rw [balanceOf_congr fun i => keyAt_resetRound i, balanceOf]
  rcases hf : userdbFind db key with _ | ⟨rec, off⟩
  · rfl
  · have hget : db[off]? = some rec := (userdbFind_eq_some.1 hf).1
    by_cases hburned : rec.money = -1 <;>
      simp [userdbResetRound, hget, UserRecord.reset, hburned]

/-- How a balance changes. -/
inductive BalanceStep (s : Shared) (th : Thread) (o : Op) (key : Key) (s' : Shared) : Prop
  | kept (h : balanceOf s'.users key = balanceOf s.users key)
  | opened (rec : UserRecord) (sock : ℕ) (k : Key) (hth : th = .login sock (.append k rec))
      (hnone : balanceOf s.users key = none) (h : balanceOf s'.users key = some rec.money)
  | stored (off : ℕ) (rec : UserRecord) (hth : th.stores = some (off, rec))
      (hplayer : th.player = some key) (h : balanceOf s'.users key = some rec.money)
  | burned (h : balanceOf s'.users key = some (-1))
  | reset (ho : o = .userdbResetRound initialMoney) (h : balanceOf s'.users key =
      (balanceOf s.users key).map fun b => if b = -1 then -1 else initialMoney)

/-- **How a balance changes** in one step. -/
theorem balance_cases (hA : Account s th) (hC : Copied s th) (ha : th.action = some a)
    {r : a.op.Ret} (h : a.op.exec s c = some (s', r)) (key : Key) :
    BalanceStep s th a.op key s' := by
  by_cases hst : a.op.store = some .users
  · have hop := users_op ha hst
    generalize a.op = o at hop r
    cases hop with
    | append sock k rec hth =>
      simp only [Op.exec] at h
      split_ifs at h
      · cases h
        have hb : balanceOf (s.users ++ [rec]) key =
            (balanceOf s.users key).or (if rec.key = key then some rec.money else none) :=
          balanceOf_append
        rcases hold : balanceOf s.users key with _ | b
        · rw [hold, Option.none_or] at hb
          by_cases hk : rec.key = key
          · rw [if_pos hk] at hb
            exact .opened rec sock k hth hold hb
          · rw [if_neg hk] at hb
            exact .kept (hb.trans hold.symm)
        · rw [hold, Option.some_or] at hb
          exact .kept (hb.trans hold.symm)
      · cases h
        exact .kept rfl
    | update off rec' hth =>
      obtain ⟨rec, hcopy, hkey⟩ := copy_of_stores hth
      obtain ⟨hplayer, r₀, hf⟩ := hC rec off hcopy
      rcases exec_updateAt h with he | he
      · exact .kept (by rw [he])
      · by_cases hk : rec'.key = key
        · refine .stored off rec' hth (by rw [hplayer, ← hkey, hk]) ?_
          rw [he, balanceOf_set (by rw [← hk, hkey]; exact hf) hk]
        · refine .kept ?_
          rw [he, balanceOf_set_of_ne (by rw [hkey]; exact hA.copy rec off hcopy) hk]
    | indeterminate hth =>
      rw [hA.determinate] at hth
      cases hth
    | burn off =>
      rcases exec_burnAt h with he | he
      · exact .kept (by rw [he])
      · rcases balanceOf_burnAt s.users off key with hb | hb
        · exact .kept (by rw [he, hb])
        · exact .burned (by rw [he, hb])
    | reset =>
      rcases exec_resetRound h with he | he
      · exact .kept (by rw [he])
      · exact .reset rfl (by rw [he, balanceOf_resetRound])
  · exact .kept (by rw [(exec_frame h).users hst])

/-! ### Commands that end with the check -/

/-- The check of bankruptcy is still to come, or the sale is still to be credited. -/
def Command.vetted : Command → Bool
  | .buy _ _ | .rumor _ _ => true
  | .error _ _ check => check
  | .bankruptcy .send => false
  | .bankruptcy _ => true
  | .sell _ _ (.dispose _ _ _ _) | .sell _ _ (.lookup _ _) | .sell _ _ (.credit _ _ _ _) => true
  | _ => false

/-- What a check has found. -/
def Thread.Checks (s : Shared) : Thread → Prop
  | .session _ key (.bankruptcy (.count off)) =>
    ∃ rec, userdbFind s.users key = some (rec, off) ∧ rec.money ≤ 0
  | .session _ key (.bankruptcy (.burn off)) =>
    (∃ rec, userdbFind s.users key = some (rec, off) ∧ rec.money ≤ 0) ∧ SandboxEmpty s key
  | .session _ key (.bankruptcy .send) => balanceOf s.users key = some (-1)
  | _ => True

/-- What a thread is going to assign: the initial balance to a new account, and never nothing. -/
def Thread.Tops : Thread → Prop
  | .session _ _ (.fakeRich (.update rec _)) => rec.money ≠ 0
  | .login _ (.append _ rec) => rec.money = initialMoney
  | _ => True

theorem resume_vetted {α : Type} {f : α → Command} {n : Next α}
    (hf : ∀ pc, (f pc).vetted = true) :
    ∃ pc', Command.resume f true n = .cont pc' ∧ pc'.vetted = true := by
  rcases n with pc | _ | ⟨code, reason⟩
  · exact ⟨f pc, rfl, hf pc⟩
  · exact ⟨.bankruptcy .lookup, rfl, rfl⟩
  · exact ⟨.error code reason true, rfl, rfl⟩

/-- A lookup that must succeed. -/
theorem exec_find_of_balance {r} (h : (Op.userdbFind key).exec s c = some (s', r))
    (hok : c.ok = true) (hb : balanceOf s.users key = some m) :
    ∃ rec off, r = .ok (rec, off) ∧ userdbFind s.users key = some (rec, off) ∧ rec.money = m := by
  obtain ⟨⟨rec, off⟩, hf, hm⟩ := Option.map_eq_some_iff.1 hb
  obtain ⟨-, ⟨-, x, hx, rfl⟩ | ⟨hnone, -⟩⟩ := exec_find h
  · rw [hf, Option.some.injEq] at hx
    subst hx
    exact ⟨rec, off, rfl, hf, hm⟩
  · rw [hnone hok] at hf
    cases hf

/-- **A command stays on the way to the check** while the account is broke. -/
theorem vetted_step {pc : Command} {n : Next Command} (hv : pc.vetted = true)
    (hB : Broke s key) (hB' : Broke s' key)
    (hdisk : (clientLoop sock key pc).op.onDisk = true → c.ok = true)
    (hdir : ∀ k ∈ (clientLoop sock key pc).op.counts, userDir s.cwd k.bytes ∈ s.files.dirs)
    (hchecks : (Thread.session sock key pc).Checks s) (hC : Copied s (.session sock key pc))
    (hcredit : ∀ x ∈ (Thread.session sock key pc).credits, x.2 = 0 → ¬ SandboxEmpty s x.1)
    (h : (clientLoop sock key pc).Steps s c s' n) : ∃ pc', n = .cont pc' ∧ pc'.vetted = true := by
  cases pc with
  | buy d q =>
    obtain ⟨m, -, rfl⟩ := Action.steps_map.1 h
    exact resume_vetted fun _ => rfl
  | rumor k q =>
    obtain ⟨m, -, rfl⟩ := Action.steps_map.1 h
    exact resume_vetted fun _ => rfl
  | error code reason check =>
    obtain ⟨r, -, rfl⟩ := h
    obtain rfl : check = true := hv
    exact ⟨_, rfl, rfl⟩
  | bankruptcy q =>
    cases q with
    | lookup =>
      obtain ⟨r, hr, rfl⟩ := h
      obtain ⟨rec, off, rfl, -, hm⟩ := exec_find_of_balance hr (hdisk rfl) hB.1
      exact ⟨.bankruptcy (.count off), by simp [clientLoop, checkBankruptcy, Action.map, hm], rfl⟩
    | count off =>
      obtain ⟨r, hr, rfl⟩ := h
      have hopen : s.files.opendir (userDir s.cwd key.bytes) = some [] := by
        rw [Files.opendir, if_pos (hdir key rfl), show s.files.docs _ = [] from hB.2, List.map_nil]
      simp only [clientLoop, checkBankruptcy, Action.map, Op.exec, hdisk rfl, if_true, hopen] at hr
      cases hr
      exact ⟨.bankruptcy (.burn off), rfl, rfl⟩
    | burn off =>
      obtain ⟨⟨rec, hf, -⟩, -⟩ := hchecks
      obtain ⟨r, hr, rfl⟩ := h
      simp only [clientLoop, checkBankruptcy, Action.map, Op.exec, hdisk rfl, if_true] at hr
      cases hr
      have hb := hB'.1
      rw [balanceOf_burnAt_self hf] at hb
      cases hb
    | send => cases hv
  | sell n ds q =>
    cases q with
    | dispose npc d todo sold =>
      obtain ⟨r, -, rfl⟩ := h
      cases todo <;> exact ⟨_, rfl, rfl⟩
    | lookup npc sold =>
      obtain ⟨r, hr, rfl⟩ := h
      obtain ⟨rec, off, rfl, -, -⟩ := exec_find_of_balance hr (hdisk rfl) hB.1
      exact ⟨_, rfl, rfl⟩
    | credit npc sold rec off =>
      obtain ⟨hplayer, r₀, hf⟩ := hC rec off rfl
      obtain rfl : key = rec.key := Option.some.inj hplayer
      obtain ⟨r, hr, rfl⟩ := h
      simp only [clientLoop, handleSell, Action.map, Op.exec, hdisk rfl, if_true] at hr
      cases hr
      let paid : UserRecord := { rec with money := wrapInt32 (rec.money + npc.bounty) }
      have hb : balanceOf (s.users.set off paid) rec.key = some 0 := hB'.1
      rw [balanceOf_set hf (show paid.key = _ from rfl)] at hb
      exact absurd hB.2 (hcredit (rec.key, paid.money) rfl (Option.some.inj hb))
    | _ => cases hv
  | _ => cases hv

/-- The thread is on the way to the check of the key. -/
def Thread.Vets (key : Key) : Thread → Prop
  | .session _ k pc => k = key ∧ pc.vetted = true
  | _ => False

/-- **Who gets broke by a step** is on the way to the check. -/
theorem newly_broke (hA : Account s th) (hC : Copied s th) (hT : th.Tops) (hW : s.files.Housed)
    (ha : th.action = some a)
    (hlast : ∀ rec ∈ s.users, balanceOf s.users rec.key = some 0 →
      a.op.takesLast s (userDir s.cwd rec.key.bytes) = true → th.sellsFor = some rec.key)
    (hcredit : ∀ x ∈ th.credits, x.2 = 0 → ¬ SandboxEmpty s x.1)
    {r : a.op.Ret} (h : a.op.exec s c = some (s', r)) (hB : ¬ Broke s key) (hB' : Broke s' key) :
    (a.next r).Vets key := by
  have hcwd : s'.cwd = s.cwd := (exec_frame h).cwd
  have hempty' : s'.files.docs (userDir s.cwd key.bytes) = [] := hcwd ▸ hB'.2
  have hzero := hB'.1
  cases balance_cases hA hC ha h key with
  | kept hb =>
    rw [hb] at hzero
    rcases empty_step hW h hempty' with hempty | htakes
    · exact absurd ⟨hzero, hempty⟩ hB
    · obtain ⟨⟨rec, off⟩, hf, -⟩ := Option.map_eq_some_iff.1 hzero
      obtain ⟨hmem, rfl⟩ := userdbFind_mem hf
      have hsells := hlast rec hmem hzero htakes
      cases th with
      | session sock k pc =>
        cases pc with
        | sell n ds q =>
          cases hsells
          cases ha
          cases q with
          | dispose npc d todo sold =>
            cases todo <;> exact ⟨rfl, rfl⟩
          | _ => cases htakes
        | _ => cases hsells
      | _ => cases hsells
  | opened rec sock k hth _ hb =>
    subst hth
    rw [hb, show rec.money = initialMoney from hT] at hzero
    cases hzero
  | burned hb =>
    rw [hb] at hzero
    cases hzero
  | reset ho hb =>
    rw [hb] at hzero
    obtain ⟨b, -, hb⟩ := Option.map_eq_some_iff.1 hzero
    split_ifs at hb
    all_goals cases hb
  | stored off rec hth hplayer hb =>
    rw [hb] at hzero
    have hm : rec.money = 0 := Option.some.inj hzero
    cases th with
    | session sock k pc =>
      cases hplayer
      cases ha
      cases pc with
      | buy d q | rumor target q =>
        cases q <;> cases hth
        exact ⟨rfl, rfl⟩
      | fakeRich q =>
        cases q <;> cases hth
        exact absurd hm hT
      | payoff q =>
        cases q <;> cases hth
        cases hm
      | sell n ds q =>
        cases q <;> cases hth
        have hfiles : s'.files = s.files :=
          (exec_frame h).files (by simp [clientLoop, handleSell, Action.map])
        rw [hfiles] at hempty'
        exact absurd hempty' (hcredit _ rfl hm)
      | _ => cases hth
    | _ => cases hplayer

/-! ### The threads -/

theorem tops_own (hgoal : 0 < s.round.goalMoney) (ha : th.action = some a)
    (h : a.Steps s c s' th') : th'.Tops := by
  have ho := thread_origin ha h
  cases th' with
  | login sock pc' =>
    obtain ⟨pc, rfl, hs⟩ := ho
    cases pc' with
    | append key rec =>
      obtain ⟨rfl, -, -⟩ := login_append hs
      obtain ⟨r, hr, hn⟩ := hs
      simp only [clientLogin] at hn
      split at hn
      · cases hn
        rfl
      · split_ifs at hn <;> cases hn
    | _ => trivial
  | session sock key pc' =>
    obtain ⟨pc, rfl, hs⟩ | ⟨rfl, -⟩ := ho
    · cases pc' with
      | fakeRich q' =>
        cases q' with
        | update rec off =>
          obtain ⟨he, -⟩ | ⟨q, rfl, hq⟩ := session_origin hs
          · cases he
          · obtain ⟨rec₀, -, -, hmoney⟩ | ⟨rfl, -⟩ := handleFakeRich_copy hq rfl
            · exact ne_of_gt (hmoney ▸ hgoal)
            · obtain ⟨r, -, hn⟩ := hq
              simp only [handleFakeRich] at hn
              split at hn <;> cases hn
        | _ => trivial
      | _ => trivial
    · trivial
  | _ => trivial

/-- What the check finds when it counts the documents. -/
theorem exec_count_zero {r} (h : (Op.sandboxCount key).exec s c = some (s', r))
    (hr : r = some 0) : s' = s ∧ SandboxEmpty s key := by
  simp only [Op.exec] at h
  cases h
  refine ⟨rfl, ?_⟩
  split_ifs at hr
  · obtain ⟨ids, hids, hlen⟩ := Option.map_eq_some_iff.1 hr
    rw [List.length_eq_zero_iff] at hlen
    subst hlen
    simp only [Files.opendir] at hids
    split_ifs at hids
    exact List.map_eq_nil_iff.1 (Option.some.inj hids)

theorem checks_own (hchecks : th.Checks s) (ha : th.action = some a)
    (hdisk : a.op.onDisk = true → c.ok = true) (h : a.Steps s c s' th') : th'.Checks s' := by
  have ho := thread_origin ha h
  cases th' with
  | session sock key pc' =>
    obtain ⟨pc, rfl, hs⟩ | ⟨rfl, -⟩ := ho
    · cases pc' with
      | bankruptcy q' =>
        cases ha
        obtain rfl | ⟨q, rfl, hq⟩ := session_origin hs
        · trivial
        · cases q with
          | lookup =>
            obtain ⟨r, hr, hn⟩ := hq
            obtain ⟨rfl, ⟨-, x, hx, rfl⟩ | ⟨-, rfl⟩⟩ := exec_find hr
            · simp only [checkBankruptcy] at hn
              split_ifs at hn with hm
              cases hn
              exact ⟨x.1, hx, not_lt.1 hm⟩
            · cases hn
          | count off =>
            obtain ⟨r, hr, hn⟩ := hq
            rcases r with _ | n
            · cases hn
            · simp only [checkBankruptcy] at hn
              split_ifs at hn with hpos
              cases hn
              obtain ⟨rfl, hempty⟩ := exec_count_zero hr (by rw [Nat.eq_zero_of_not_pos hpos])
              exact ⟨hchecks, hempty⟩
          | burn off =>
            obtain ⟨⟨rec, hf, -⟩, -⟩ := hchecks
            obtain ⟨r, hr, hn⟩ := hq
            simp only [checkBankruptcy, Op.exec, hdisk rfl, if_true] at hr
            cases hr
            cases hn
            exact balanceOf_burnAt_self hf
          | send =>
            obtain ⟨r, -, hn⟩ := hq
            cases hn
      | _ => trivial
    · trivial
  | _ => trivial

/-- A thread that stores a balance is processing a command. -/
theorem busy_of_stores {x : ℕ × UserRecord} (h : th.stores = some x) : th.busy = true := by
  cases th with
  | session sock key pc => cases pc <;> first | rfl | cases h
  | _ => cases h

/-- The steps of the other threads keep what a check has found. -/
theorem checks_frame (hA : Account s th) (hC : Copied s th) (ha : th.action = some a)
    (hguard : ∀ key ∈ u.checking, a.op.resetsRecords = false ∧
      (a.op.puts s.cwd).map Prod.fst ≠ some (userDir s.cwd key.bytes))
    (hfree : u.busy = true → th.busy = false) (hu : u.Checks s)
    {r : a.op.Ret} (h : a.op.exec s c = some (s', r)) : u.Checks s' := by
  have hcwd : s'.cwd = s.cwd := (exec_frame h).cwd
  -- a balance of a key whose session is busy
  have hbalance : u.busy = true → ∀ key b, balanceOf s.users key = some b → b ≤ 0 →
      (a.op = .userdbResetRound initialMoney → b = -1) →
        ∃ b', balanceOf s'.users key = some b' ∧ b' ≤ 0 ∧ (b = -1 → b' = -1) := by
    intro hbusy key b hb hle hreset
    cases balance_cases hA hC ha h key with
    | kept he => exact ⟨b, he.trans hb, hle, id⟩
    | opened rec sock k _ hnone _ =>
      rw [hnone] at hb
      cases hb
    | burned he => exact ⟨-1, he, by decide, fun _ => rfl⟩
    | stored off rec hth _ _ =>
      rw [busy_of_stores hth] at hfree
      cases hfree hbusy
    | reset ho he =>
      rw [hb, Option.map_some, if_pos (hreset ho)] at he
      exact ⟨-1, he, by decide, fun _ => rfl⟩
  have hfound : u.busy = true → ∀ key off, key ∈ u.checking →
      (∃ rec, userdbFind s.users key = some (rec, off) ∧ rec.money ≤ 0) →
        ∃ rec, userdbFind s'.users key = some (rec, off) ∧ rec.money ≤ 0 := by
    rintro hbusy key off hkey ⟨rec, hf, hm⟩
    obtain ⟨rec', hf'⟩ := find_step hA (users_step ha ⟨r, h, rfl⟩) hf
    obtain ⟨b', hb', hle, -⟩ := hbalance hbusy key rec.money (by rw [balanceOf, hf]; rfl) hm
      fun he => by
        have hno := (hguard key hkey).1
        rw [he] at hno
        cases hno
    rw [balanceOf, hf', Option.map_some, Option.some.injEq] at hb'
    exact ⟨rec', hf', hb' ▸ hle⟩
  cases u with
  | session sock key pc =>
    cases pc with
    | bankruptcy q =>
      cases q with
      | count off => exact hfound rfl key off rfl hu
      | burn off =>
        refine ⟨hfound rfl key off rfl hu.1, docs_eq_nil.2 fun i => ?_⟩
        rcases hget : s'.files.get (userDir s'.cwd key.bytes) i with _ | doc
        · rfl
        · rw [hcwd] at hget
          rcases get_step h hget with hold | hputs
          · rw [docs_eq_nil.1 hu.2 i] at hold
            cases hold
          · exact absurd (by rw [hputs]; rfl) (hguard key rfl).2
      | send =>
        obtain ⟨b', hb', -, hburned⟩ := hbalance rfl key (-1) hu (by decide) fun _ => rfl
        rw [hburned rfl] at hb'
        exact hb'
      | lookup => trivial
    | _ => trivial
  | _ => trivial

/-! ### The invariant -/

/-- The name of the command under way. -/
def Thread.turn (th : Thread) : Option Unit := if th.busy then some () else none

theorem turn_eq_some {x : Unit} : th.turn = some x ↔ th.busy = true := by
  cases hb : th.busy <;> simp [Thread.turn, hb]

/-- A command under way was under way before, or its session was waiting. -/
theorem busy_step (ha : th.action = some a) (h : a.Steps s c s' th') (hb : th'.busy = true) :
    th.busy = true ∨ th.waits = true := by
  have ho := thread_origin ha h
  cases th' with
  | session sock key pc' =>
    obtain ⟨pc, rfl, -⟩ | ⟨rfl, -⟩ := ho
    · cases pc <;> first | exact .inl rfl | exact .inr rfl
    · cases hb
  | _ => cases hb

theorem spawned_not_busy {r : o.Ret} (hu : u ∈ o.spawned r) : u.busy = false ∧ u.copy = none ∧
    u.Tops ∧ u.Checks s := by
  obtain ⟨n, rfl⟩ | ⟨sock, -, rfl⟩ := spawned_start hu
  · cases n <;> exact ⟨rfl, rfl, trivial, trivial⟩
  · exact ⟨rfl, rfl, trivial, trivial⟩

/-- What holds of every thread. -/
structure Solid (s : Shared) (th : Thread) : Prop where
  account : Account s th
  copied : Copied s th
  tops : th.Tops
  checks : th.Checks s

/-- **The invariant**: who is broke was so at the start, or is being vetted. -/
structure BankruptcyInv (s₀ : Shared) (p : Server) : Prop where
  threads : ∀ u ∈ p.threads, Solid p.shared u
  /-- One command is under way at most. -/
  one : Pool.InjOn Thread.turn p.threads
  goal : 0 < p.shared.round.goalMoney
  housed : p.shared.files.Housed
  broke : ∀ key, Broke p.shared key → Broke s₀ key ∨ ∃ u ∈ p.threads, u.Vets key

theorem goal_pos_step (hstep : RoundStep s o s') (hgoal : 0 < s.round.goalMoney) :
    0 < s'.round.goalMoney := by
  cases hstep with
  | same _ hround | busy _ _ hround | claim _ _ hround | release _ hround =>
    rw [hround]
    exact hgoal
  | reset _ hround =>
    rw [hround]
    exact (by decide : (0 : ℤ) < goalMoney)
  | payoff key money _ hround =>
    rw [hround, roundPayoff_goal]
    split_ifs
    · exact hgoal
    · exact lt_min (by have : (0 : ℤ) < debtRaiseStep := by decide
                       omega) (by decide)

section

variable {s₀ : Shared} {p p' : Server} {t : ℕ} {l : Label}

theorem bankruptcyInv_boot {cwd : Dir} {files : Files} {users : UserDb} {clock : ℕ}
    (hfiles : files.Housed) :
    BankruptcyInv (boot cwd files users clock).shared (boot cwd files users clock) where
  threads u hu := by
    obtain rfl := List.mem_singleton.1 hu
    exact ⟨⟨nofun, nofun, trivial, rfl⟩, nofun, trivial, trivial⟩
  one := Pool.InjOn.of_nodup List.nodup_nil
  goal := (by decide : (0 : ℤ) < goalMoney)
  housed := hfiles
  broke _ h := .inl h

/-- **The invariant is kept** by the guarded step of a thread. -/
theorem bankruptcyInv_run (hI : BankruptcyInv s₀ p) (hG : BankruptcyGuard p (.run t c))
    (hn : server.next p (.run t c) = some p') : BankruptcyInv s₀ p' := by
  obtain ⟨th, a, r, hth, ha, hr, hthreads⟩ := server_run hn
  have hmem : th ∈ p.threads := List.mem_of_getElem? hth
  have hop : opAt p (.run t c) = some a.op := opAt_run hth ha
  have hat : threadAt p (.run t c) = some th := hth
  have hS := hI.threads th hmem
  have hs : a.Steps p.shared c p'.shared (a.next r) := ⟨r, hr, rfl⟩
  have hdisk : a.op.onDisk = true → c.ok = true := hG.scope.disk a.op hop
  -- a working disk answers every lookup the accounts rest on
  have hdb : DbOk p (.run t c) := by
    rintro u hu htrusts
    obtain rfl := Option.some.inj (hth.symm.trans hu)
    refine hG.scope.disk a.op hop ?_
    cases th with
    | login sock pc => cases ha; cases pc <;> first | rfl | cases htrusts
    | session sock key pc =>
      cases pc with
      | sell n ds q => cases ha; cases q <;> first | rfl | cases htrusts
      | _ => cases htrusts
    | _ => cases htrusts
  have hcases : ∀ u ∈ p'.threads, (∃ j, j ≠ t ∧ p.threads[j]? = some u) ∨ u = a.next r ∨
      u ∈ a.op.spawned r := by
    intro u hu
    obtain ⟨j, hj⟩ := List.getElem?_of_mem hu
    rw [hthreads] at hj
    rcases Pool.getElem?_step hj with ⟨hjt, hj⟩ | ⟨-, rfl⟩ | hnew
    · exact .inl ⟨j, hjt, hj⟩
    · exact .inr (.inl rfl)
    · exact .inr (.inr hnew)
  refine ⟨fun u hu => ?_, ?_, goal_pos_step (round_step hr) hI.goal, housed_step hI.housed hr,
    fun key hB' => ?_⟩
  · rcases hcases u hu with ⟨j, hjt, hj⟩ | rfl | hnew
    · have hu' := hI.threads u (List.mem_of_getElem? hj)
      refine ⟨hS.account.frame (users_step ha hs) hu'.account,
        copied_frame hS.account ha hs hu'.copied,
        hu'.tops, checks_frame hS.account hS.copied ha
          (hG.checks a.op hop u (List.mem_of_getElem? hj)) ?_ hu'.checks hr⟩
      intro hbusy
      by_contra hb
      rw [Bool.not_eq_false] at hb
      exact hjt (hI.one j t u th () hj hth (turn_eq_some.2 hbusy) (turn_eq_some.2 hb))
    · exact ⟨account_own hS.account hdb hth ha hs, copied_own hS.account hS.copied ha hs,
        tops_own hI.goal ha hs, checks_own hS.checks ha hdisk hs⟩
    · obtain ⟨-, hcopy, htops, hchecks⟩ := spawned_not_busy (s := p'.shared) hnew
      have hcopied : Copied p'.shared u := by
        intro rec off hc
        rw [hcopy] at hc
        cases hc
      refine ⟨?_, hcopied, htops, hchecks⟩
      obtain ⟨n, rfl⟩ | ⟨sock, -, rfl⟩ := spawned_start hnew
      · cases n <;> exact ⟨nofun, nofun, trivial, rfl⟩
      · exact ⟨nofun, nofun, trivial, rfl⟩
  · rw [hthreads]
    refine (hI.one.set hth fun x hx => ?_).append fun u hu => ?_
    · rcases busy_step ha hs (turn_eq_some.1 hx) with hbusy | hwaits
      · exact .inl (turn_eq_some.2 hbusy)
      · refine .inr fun v hv hvx => ?_
        rw [turn_eq_some, hG.scope.oneByOne th hat hwaits v hv] at hvx
        cases hvx
    · rw [Thread.turn, (spawned_not_busy (s := p'.shared) hu).1]
      rfl
  -- an account that was broke is being vetted on, one newly broke is vetted by who made it so
  · by_cases hB : Broke p.shared key
    · rcases hI.broke key hB with h₀ | ⟨u, hu, hvets⟩
      · exact .inl h₀
      · refine .inr ?_
        obtain ⟨j, hj⟩ := List.getElem?_of_mem hu
        by_cases hjt : j = t
        · subst hjt
          obtain rfl : u = th := Option.some.inj (hj.symm.trans hth)
          cases u with
          | session sock k pc =>
            obtain ⟨rfl, hv⟩ := hvets
            have ha' := ha
            cases ha'
            obtain ⟨n, hn', he⟩ := Action.steps_map.1 hs
            obtain ⟨pc', rfl, hv'⟩ := vetted_step hv hB hB' hdisk (hG.scope.counted _ hop)
              hS.checks hS.copied (hG.credit _ hat) hn'
            have hvets : (Thread.session sock k pc').Vets k := ⟨rfl, hv'⟩
            refine ⟨_, ?_, hvets⟩
            rw [hthreads, he]
            exact List.mem_of_getElem? (Pool.getElem?_step_self hth)
          | _ => exact hvets.elim
        · refine ⟨u, ?_, hvets⟩
          rw [hthreads]
          exact List.mem_of_getElem? (Pool.getElem?_step_of_ne hjt hj)
    · refine .inr ⟨a.next r, ?_, newly_broke hS.account hS.copied hS.tops hI.housed ha
        (hG.last th hat a.op hop) (hG.credit th hat) hr hB hB'⟩
      rw [hthreads]
      exact List.mem_of_getElem? (Pool.getElem?_step_self hth)

theorem bankruptcyInv_env {seconds : ℕ} (hI : BankruptcyInv s₀ p)
    (hn : server.next p (.env seconds) = some p') : BankruptcyInv s₀ p' := by
  obtain rfl := Pool.next_env.1 hn
  refine ⟨fun u hu => ?_, hI.one, hI.goal, hI.housed, hI.broke⟩
  obtain ⟨hA, hC, hT, hchecks⟩ := hI.threads u hu
  exact ⟨⟨hA.copy, hA.known, hA.append, hA.determinate⟩, hC, hT, hchecks⟩

theorem BankruptcyInv.neverMissed (hI : BankruptcyInv s₀ p) : NeverMissed s₀ p where
  settled hidle sock key _ hB := by
    rcases hI.broke key hB with h₀ | ⟨u, hu, hvets⟩
    · exact h₀
    · have hnot := hidle u hu
      cases u with
      | session sock k pc =>
        obtain ⟨-, hv⟩ := hvets
        cases pc with
        | recv => cases hv
        | _ => cases hnot
      | _ => exact hvets.elim
  spared sock key off hu := by
    obtain ⟨⟨rec, hf, hm⟩, hempty⟩ := (hI.threads _ hu).checks
    exact ⟨rec, hf, hm, hempty⟩
  burned sock key hu := (hI.threads _ hu).checks

end

/-! ### Runs -/

/-- The event thread lists the document 1 for 1000, and Alice buys it with all she has. -/
def lastPennyScript : List Label :=
  startUp ++ connect 5 ++ logIn 2 (Key.ofBytes (utf8 "alice")) ++ steps 1 3 ++
    .env evtTickSec :: steps 1 7 ++ .run 1 { rand := [1] } :: steps 1 1 ++
    .run 1 { rand := [2] } :: steps 1 4 ++ receive 2 (.buy 1) :: steps 2 11

/-- She disposes of it. -/
def lastDocumentScript : List Label := lastPennyScript ++ receive 2 (.dispose 1) :: steps 2 3

theorem housed_fresh : freshBoot.shared.files.Housed := fun _ _ => rfl

end UnderFlow
