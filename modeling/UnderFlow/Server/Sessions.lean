import UnderFlow.Server.Records

/-!
# One session and one record for each key

* `conn_step` : the life of a connection, step by step.
* `OneSession` : no two slots, handlers or records share a key.
* `LoginGuard` : a key is checked for duplicates only while no other handler is between the check
  and the registration of that key, and the database works.
* `oneSession_of_guard` : then `OneSession` holds in every state of a run.
* `not_oneSession` : two simultaneous logins break it.
-/

namespace UnderFlow

variable {s s' : Shared} {c : Choice} {th th' : Thread} {a : Action Thread} {key k : Key}
  {sock x : ℕ}

/-! ### Sessions and logins -/

/-- The slots in use hold different keys, different handlers serve different keys, and every key has
one record at most. -/
structure OneSession (p : Server) : Prop where
  slots : ∀ (i j : ℕ) (cl₁ cl₂ : Client), p.shared.clients[i]? = some cl₁ →
    p.shared.clients[j]? = some cl₂ → cl₁.sock ≠ 0 → cl₂.sock ≠ 0 → cl₁.key ≠ Key.empty →
    cl₁.key = cl₂.key → i = j
  loops : ∀ (t₁ t₂ sock₁ sock₂ : ℕ) (key : Key) (pc₁ pc₂ : Command),
    p.threads[t₁]? = some (.session sock₁ key pc₁) →
    p.threads[t₂]? = some (.session sock₂ key pc₂) → t₁ = t₂
  records : (p.shared.users.map (·.key)).Nodup

/-- The key a handler has checked, up to its registration. -/
def Login.pending : Login → Option Key
  | .lookup key | .append key _ | .register key _ => some key
  | _ => none

/-- The key a thread has checked and not registered. -/
def Thread.pending : Thread → Option Key
  | .login _ pc => pc.pending
  | _ => none

/-- The key a handler is about to check. -/
def Thread.checks : Thread → Option Key
  | .login _ (.duplicate key) => some key
  | _ => none

/-- When logins keep apart: the lookups of logins and sales succeed, and a key is checked only while
no handler is between the check and the registration of that key. -/
structure LoginGuard (p : Server) (l : Label) : Prop where
  db : DbOk p l
  alone : ∀ th ∈ threadAt p l, ∀ key ∈ th.checks, key ≠ Key.empty →
    ∀ u ∈ p.threads, u.pending ≠ some key

instance (p : Server) (l : Label) : Decidable (LoginGuard p l) :=
  decidable_of_iff (_ ∧ _) ⟨fun h => ⟨h.1, h.2⟩, fun h => ⟨h.db, h.alone⟩⟩

/-! ### Connections -/

/-- The descriptor a thread answers for. -/
def Thread.fd : Thread → Option ℕ
  | .main (.add sock) | .main (.reject sock) => some sock
  | .login sock _ | .session sock _ _ | .disconnect sock _ => some sock
  | _ => none

/-- The connection whose slot a handler uses. -/
def Thread.handles : Thread → Option ℕ
  | .login sock _ | .session sock _ _ | .disconnect sock .remove => some sock
  | _ => none

/-- The key in the slot of a login. -/
def Login.slotKey : Login → Option Key
  | .recv | .duplicate _ | .lookup _ | .append _ _ | .register _ _ => some Key.empty
  | .refuse _ _ => none
  | pc => pc.account

/-- The key in the slot of a handler, where its point tells. -/
def Thread.slotKey : Thread → Option Key
  | .login _ pc => pc.slotKey
  | .session _ key _ => some key
  | _ => none

/-- The key a handler has passed the check with. -/
def Login.held : Login → Option Key
  | .lookup key => some key
  | .append key _ => some key
  | pc => pc.account

/-- The key a thread has registered. -/
def Thread.held : Thread → Option Key
  | .login _ pc => pc.held
  | .session _ key _ => some key
  | _ => none

/-- What a step does to the connections. -/
inductive ConnStep (s : Shared) (th : Thread) (s' : Shared) (th' : Thread) (new : List Thread) :
    Prop
  | quiet (hclients : s'.clients = s.clients) (hfds : s'.openFds = s.openFds)
      (hfd : ∀ x, th'.fd = some x → th.fd = some x)
      (hhandles : ∀ x, th'.handles = some x → th.handles = some x)
      (hlost : th'.handles = none → th.handles = none)
      (hslot : ∀ k, th'.slotKey = some k → th.slotKey = some k)
      (hheld : ∀ k, th'.held = some k → th.held = some k)
      (hpending : ∀ k, th'.pending = some k → th.pending = some k)
      (hnew : ∀ u ∈ new, u.fd = none)
  | accept (sock : ℕ) (hth : th = .main .accept) (hth' : th' = .main (.add sock)) (h0 : sock ≠ 0)
      (hfresh : sock ∉ s.openFds) (hfds : s'.openFds = sock :: s.openFds)
      (hclients : s'.clients = s.clients) (hnew : new = [])
  | add (sock : ℕ) (hth : th = .main (.add sock)) (hth' : th' = .main .accept)
      (hnew : new = [.login sock .recv]) (hclients : clientAdd s.clients sock = some s'.clients)
      (hfds : s'.openFds = s.openFds)
  | reject (sock : ℕ) (hth : th = .main (.add sock)) (hth' : th' = .main (.reject sock))
      (hclients : s'.clients = s.clients) (hfds : s'.openFds = s.openFds) (hnew : new = [])
  | check (sock : ℕ) (key : Key) (hth : th = .login sock (.duplicate key))
      (hth' : th' = .login sock (.lookup key)) (hdup : clientDuplicate s.clients sock key = false)
      (hclients : s'.clients = s.clients) (hfds : s'.openFds = s.openFds) (hnew : new = [])
  | register (sock : ℕ) (key : Key) (rec : UserRecord) (hth : th = .login sock (.register key rec))
      (hth' : th' = .login sock (.mkdir key rec))
      (hclients : s'.clients = clientRegister s.clients sock key)
      (hfds : s'.openFds = s.openFds) (hnew : new = [])
  | remove (sock : ℕ) (hth : th = .disconnect sock .remove) (hth' : th' = .disconnect sock .close)
      (hclients : s'.clients = clientRemove s.clients sock) (hfds : s'.openFds = s.openFds)
      (hnew : new = [])
  | close (sock : ℕ) (hth : th.fd = some sock ∧ th.handles = none) (hth' : th'.fd = none)
      (hfds : s'.openFds = s.openFds.erase sock) (hclients : s'.clients = s.clients)
      (hnew : new = [])

/-- A new thread that is no client handler answers for no connection. -/
theorem fd_start (n : NewThread) : n.start.fd = none := by
  cases n <;> rfl

theorem spawned_fd {o : Op} {r : o.Ret} (ho : o.store ≠ some .clients) :
    ∀ u ∈ o.spawned r, u.fd = none := by
  intro u hu
  obtain ⟨n, rfl⟩ | ⟨sock, rfl, -⟩ := spawned_start hu
  · exact fd_start n
  · exact absurd rfl ho

/-- A thread that answers for no connection, before and after the step. -/
theorem quiet_of_outside {o : Op} {r : o.Ret} (hr : o.exec s c = some (s', r))
    (ho : o.store ≠ some .clients ∧ o.store ≠ some .openFds) (hth : th.handles = none)
    (hth' : th'.fd = none ∧ th'.handles = none ∧ th'.slotKey = none ∧ th'.held = none ∧
      th'.pending = none) : ConnStep s th s' th' (o.spawned r) := by
  obtain ⟨h₁, h₂, h₃, h₄, h₅⟩ := hth'
  refine .quiet ((exec_frame hr).clients ho.1) ((exec_frame hr).openFds ho.2)
    ?_ ?_ (fun _ => hth) ?_ ?_ ?_ (spawned_fd ho.1)
  all_goals simp [*]

/-- The keys of a login that goes on: it passes the check, it registers, or nothing is added. -/
theorem login_keys {pc pc' : Login} (h : (clientLogin sock pc).Steps s c s' (.cont pc')) :
    (∃ key, pc = .duplicate key ∧ pc' = .lookup key ∧ s' = s ∧
      clientDuplicate s.clients sock key = false) ∨
    (∃ key rec, pc = .register key rec ∧ pc' = .mkdir key rec ∧
      s' = { s with clients := clientRegister s.clients sock key }) ∨
    ((∀ key rec, pc ≠ .register key rec) ∧ (∀ k, pc'.slotKey = some k → pc.slotKey = some k) ∧
      (∀ k, pc'.held = some k → pc.held = some k) ∧
      ∀ k, pc'.pending = some k → pc.pending = some k) := by
  cases pc with
  | recv =>
    obtain ⟨r, -, hn⟩ := h
    simp only [clientLogin] at hn
    split at hn <;> cases hn <;>
      exact .inr (.inr ⟨(by rintro _ _ ⟨⟩), fun _ h => h, (by rintro _ ⟨⟩), (by rintro _ ⟨⟩)⟩)
  | duplicate key =>
    obtain ⟨r, hr, hn⟩ := h
    cases hr
    simp only [clientLogin] at hn
    split_ifs at hn with hdup <;> cases hn
    · exact .inr (.inr ⟨(by rintro _ _ ⟨⟩), (by rintro _ ⟨⟩), (by rintro _ ⟨⟩), (by rintro _ ⟨⟩)⟩)
    · exact .inl ⟨key, rfl, rfl, rfl, by simpa using hdup⟩
  | lookup key =>
    obtain ⟨r, -, hn⟩ := h
    simp only [clientLogin] at hn
    split at hn
    · cases hn
      exact .inr (.inr ⟨(by rintro _ _ ⟨⟩), fun _ h => h, fun _ h => h, fun _ h => h⟩)
    · split_ifs at hn <;> cases hn
      · exact .inr (.inr ⟨(by rintro _ _ ⟨⟩), (by rintro _ ⟨⟩), (by rintro _ ⟨⟩), (by rintro _ ⟨⟩)⟩)
      · exact .inr (.inr ⟨(by rintro _ _ ⟨⟩), fun _ h => h, fun _ h => h, fun _ h => h⟩)
  | register key rec =>
    obtain ⟨r, hr, hn⟩ := h
    cases hr
    cases hn
    exact .inr (.inl ⟨key, rec, rfl, rfl, rfl⟩)
  | frozenMask key =>
    obtain ⟨r, -, hn⟩ := h
    simp only [clientLogin] at hn
    split_ifs at hn
    cases hn
    exact .inr (.inr ⟨(by rintro _ _ ⟨⟩), fun _ h => h, fun _ h => h, (by rintro _ ⟨⟩)⟩)
  | marketSnapshot key | npcSnapshot key =>
    obtain ⟨r, -, hn⟩ := h
    cases r <;> cases hn <;>
      exact .inr (.inr ⟨(by rintro _ _ ⟨⟩), fun _ h => h, fun _ h => h, (by rintro _ ⟨⟩)⟩)
  | marketSend key slot todo | npcSend key slot todo =>
    obtain ⟨r, -, hn⟩ := h
    cases todo <;> cases hn <;>
      exact .inr (.inr ⟨(by rintro _ _ ⟨⟩), fun _ h => h, fun _ h => h, (by rintro _ ⟨⟩)⟩)
  | append key rec =>
    obtain ⟨r, -, hn⟩ := h
    cases hn
    exact .inr (.inr ⟨(by rintro _ _ ⟨⟩), fun _ h => h, fun _ h => h, fun _ h => h⟩)
  | refuse code reason | frozenSend key mask =>
    obtain ⟨r, -, hn⟩ := h
    cases hn
  | _ =>
    obtain ⟨r, -, hn⟩ := h
    cases hn
    exact .inr (.inr ⟨(by rintro _ _ ⟨⟩), fun _ h => h, fun _ h => h, (by rintro _ ⟨⟩)⟩)

theorem login_conn {pc : Login} {th' : Thread} {a : Action Thread}
    (ha : (Thread.login sock pc).action = some a) (h : a.Steps s c s' th') :
    ConnStep s (.login sock pc) s' th' [] := by
  cases ha
  obtain ⟨n, hn, rfl⟩ := Action.steps_map.1 h
  have hfds : s'.openFds = s.openFds :=
    h.frame.openFds ((clientLogin_within sock pc).store_ne (by simp))
  have hclients : (∀ key rec, pc ≠ .register key rec) → s'.clients = s.clients := by
    intro hreg
    refine h.frame.clients ?_
    cases pc <;> first | exact absurd rfl (hreg _ _) | simp [Action.map, clientLogin, Op.store]
  rcases n with pc' | (_ | key) | _
  · rcases login_keys hn with ⟨key, rfl, rfl, rfl, hdup⟩ | ⟨key, rec, rfl, rfl, rfl⟩ |
      ⟨hreg, hslot, hheld, hpend⟩
    · exact .check sock key rfl rfl hdup rfl rfl rfl
    · exact .register sock key rec rfl rfl rfl rfl rfl
    · exact .quiet (hclients hreg) hfds (fun _ h => h) (fun _ h => h)
        (by rintro ⟨⟩) hslot hheld hpend (by simp)
  · refine .quiet (hclients ?_) hfds (fun _ h => h) (fun _ h => h) (by rintro ⟨⟩) (by rintro _ ⟨⟩)
      (by rintro _ ⟨⟩) (by rintro _ ⟨⟩) (by simp)
    rintro key rec rfl
    obtain ⟨r, -, hn⟩ := hn
    cases hn
  · have hkeep : (∀ key rec, pc ≠ .register key rec) ∧ pc.slotKey = some key ∧
      pc.held = some key := by
      obtain rfl | ⟨mask, rfl⟩ := login_ret hn <;> exact ⟨(by rintro _ _ ⟨⟩), rfl, rfl⟩
    obtain ⟨hreg, hslot, hheld⟩ := hkeep
    show ConnStep s _ s' (.session sock key .recv) []
    exact .quiet (hclients hreg) hfds (fun _ h => h) (fun _ h => h) (by rintro ⟨⟩)
      (fun k hk => hslot.trans hk) (fun k hk => hheld.trans hk) (by rintro _ ⟨⟩) (by simp)
  · refine .quiet (hclients ?_) hfds (fun _ h => h) (fun _ h => h) (by rintro ⟨⟩) (by rintro _ ⟨⟩)
      (by rintro _ ⟨⟩) (by rintro _ ⟨⟩) (by simp)
    rintro key rec rfl
    obtain ⟨r, -, hn⟩ := hn
    cases hn

/-- **What a step does to the connections.** -/
theorem conn_step (ha : th.action = some a) {r : a.op.Ret} (hr : a.op.exec s c = some (s', r)) :
    ConnStep s th s' (a.next r) (a.op.spawned r) := by
  have h : a.Steps s c s' (a.next r) := ⟨r, hr, rfl⟩
  cases th with
  | login sock pc =>
    have hconn := login_conn ha h
    cases ha
    have hnone : (clientLogin sock pc).op.spawned r = [] := by cases pc <;> rfl
    exact hnone ▸ hconn
  | main pc =>
    cases ha
    cases pc with
    | seed q =>
      have hw := seedMarketAndNpc_within q
      obtain ⟨n, hn, he⟩ := Action.steps_map.1 h
      obtain ⟨m, -, rfl⟩ := Action.steps_map.1 hn
      rw [he]
      exact quiet_of_outside hr ⟨hw.store_ne (by simp), hw.store_ne (by simp)⟩ rfl
        (by cases m <;> exact ⟨rfl, rfl, rfl, rfl, rfl⟩)
    | marketInit | npcInit =>
      exact quiet_of_outside hr ⟨(by rintro ⟨⟩), (by rintro ⟨⟩)⟩ rfl ⟨rfl, rfl, rfl, rfl, rfl⟩
    | startEvents =>
      refine quiet_of_outside hr ⟨(by rintro ⟨⟩), (by rintro ⟨⟩)⟩ rfl ?_
      cases r <;> exact ⟨rfl, rfl, rfl, rfl, rfl⟩
    | accept =>
      simp only [Action.map, mainThread, Op.exec] at hr
      split_ifs at hr with hfd
      cases hr
      rw [not_or] at hfd
      exact .accept c.fd rfl rfl hfd.1 hfd.2 rfl rfl rfl
    | add sock =>
      simp only [Action.map, mainThread, Op.exec] at hr
      split at hr <;> cases hr
      · exact .reject sock rfl rfl rfl rfl rfl
      · rename_i cs hcs
        split_ifs at hcs
        exact .add sock rfl rfl rfl hcs rfl
    | reject sock =>
      cases hr
      exact .close sock ⟨rfl, rfl⟩ rfl rfl rfl rfl
  | disconnect sock pc =>
    cases ha
    cases pc with
    | remove =>
      cases hr
      exact .remove sock rfl rfl rfl rfl rfl
    | close =>
      cases hr
      exact .close sock ⟨rfl, rfl⟩ rfl rfl rfl rfl
  | session sock key pc =>
    cases ha
    have hw := clientLoop_within sock key pc
    have hnew : ∀ u ∈ (clientLoop sock key pc).op.spawned r, u.fd = none :=
      spawned_fd (hw.store_ne (by simp))
    have hc : s'.clients = s.clients := h.frame.clients (hw.store_ne (by simp))
    have hf : s'.openFds = s.openFds := h.frame.openFds (hw.store_ne (by simp))
    obtain ⟨n, hn, he⟩ := Action.steps_map.1 h
    rw [he]
    rcases n with pc' | _ | _
    · exact .quiet hc hf (fun _ h => h) (fun _ h => h) (by rintro ⟨⟩) (fun _ h => h) (fun _ h => h)
        (by rintro _ ⟨⟩) hnew
    · exact .quiet hc hf (fun _ h => h) (fun _ h => h) (by rintro ⟨⟩) (by rintro _ ⟨⟩)
        (by rintro _ ⟨⟩) (by rintro _ ⟨⟩) hnew
    · exact .quiet hc hf (fun _ h => h) (fun _ h => h) (by rintro ⟨⟩) (by rintro _ ⟨⟩)
        (by rintro _ ⟨⟩) (by rintro _ ⟨⟩) hnew
  | event v pc =>
    cases ha
    have hw := eventThreadFunc_within v pc
    obtain ⟨n, hn, he⟩ := Action.steps_map.1 h
    rw [he]
    exact quiet_of_outside hr ⟨hw.store_ne (by simp), hw.store_ne (by simp)⟩ rfl
      ⟨rfl, rfl, rfl, rfl, rfl⟩
  | npcSequence pc =>
    cases ha
    have hw := eventDoNpcSequence_within pc
    obtain ⟨n, hn, he⟩ := Action.steps_map.1 h
    rw [he]
    exact quiet_of_outside hr ⟨hw.store_ne (by simp), hw.store_ne (by simp)⟩ rfl
      (by cases n <;> exact ⟨rfl, rfl, rfl, rfl, rfl⟩)
  | leakRecovery mask dur pc =>
    cases ha
    have hw := leakRecoveryThread_within mask dur pc
    obtain ⟨n, hn, he⟩ := Action.steps_map.1 h
    rw [he]
    exact quiet_of_outside hr ⟨hw.store_ne (by simp), hw.store_ne (by simp)⟩ rfl
      (by cases n <;> exact ⟨rfl, rfl, rfl, rfl, rfl⟩)
  | raidTimeout serial pc =>
    cases ha
    have hw := periodicRaidTimeoutThread_within pc
    obtain ⟨n, hn, he⟩ := Action.steps_map.1 h
    rw [he]
    exact quiet_of_outside hr ⟨hw.store_ne (by simp), hw.store_ne (by simp)⟩ rfl
      (by cases n <;> exact ⟨rfl, rfl, rfl, rfl, rfl⟩)
  | roundEndTimer pc =>
    cases ha
    have hw := roundEndTimerThread_within pc
    obtain ⟨n, hn, he⟩ := Action.steps_map.1 h
    rw [he]
    exact quiet_of_outside hr ⟨hw.store_ne (by simp), hw.store_ne (by simp)⟩ rfl
      (by cases n <;> exact ⟨rfl, rfl, rfl, rfl, rfl⟩)
  | finished => cases ha

/-! ### The client table -/

variable {cs cs' : List Client} {i : ℕ} {cl : Client}

theorem clientAdd_eq_some (h : clientAdd cs sock = some cs') :
    ∃ i cl, cs[i]? = some cl ∧ cl.sock = 0 ∧ cs' = cs.set i { cl with sock := sock } := by
  obtain ⟨⟨cl, _⟩, hu, rfl⟩ := Option.map_eq_some_iff.1 h
  obtain ⟨i, hi, rfl, h0, -⟩ := updateFirst_eq_set hu
  exact ⟨i, cl, hi, by simpa using h0, rfl⟩

theorem clientRegister_eq (hi : cs[i]? = some cl) (hcl : cl.sock = sock)
    (huniq : ∀ (j : ℕ) (d : Client), cs[j]? = some d → d.sock = sock → j = i) :
    clientRegister cs sock key = cs.set i { cl with key := key } := by
  rw [clientRegister, updateFirst_of_unique hi (by simpa using hcl)
    fun j d hj hd => huniq j d hj (by simpa using hd)]
  rfl

theorem clientRemove_eq (hi : cs[i]? = some cl) (hcl : cl.sock = sock)
    (huniq : ∀ (j : ℕ) (d : Client), cs[j]? = some d → d.sock = sock → j = i) :
    clientRemove cs sock = cs.set i {} := by
  rw [clientRemove, updateFirst_of_unique hi (by simpa using hcl)
    fun j d hj hd => huniq j d hj (by simpa using hd)]
  rfl

theorem clientDuplicate_eq_false : clientDuplicate cs sock key = false ↔
    ∀ cl ∈ cs, cl.sock ≠ 0 → cl.sock ≠ sock → cl.key ≠ key := by
  simp [clientDuplicate, imp_iff_not_or, or_assoc]

/-- A slot of a table after one of its slots was changed. -/
theorem getElem?_set_cases {α : Type} {l : List α} {i j : ℕ} {a b : α}
    (h : (l.set i a)[j]? = some b) : (j = i ∧ b = a) ∨ (j ≠ i ∧ l[j]? = some b) := by
  rw [List.getElem?_set] at h
  split_ifs at h with hij
  · cases h
    exact .inl ⟨hij.symm, rfl⟩
  · exact .inr ⟨Ne.symm hij, h⟩

/-! ### The invariant -/

/-- The slots of a client table, over the open descriptors. -/
structure Slots (cs : List Client) (fds : List ℕ) : Prop where
  inj : ∀ (i j : ℕ) (cl₁ cl₂ : Client), cs[i]? = some cl₁ → cs[j]? = some cl₂ →
    cl₁.sock ≠ 0 → cl₁.sock = cl₂.sock → i = j
  fd : ∀ (i : ℕ) (cl : Client), cs[i]? = some cl → cl.sock ≠ 0 → cl.sock ∈ fds
  free : ∀ (i : ℕ) (cl : Client), cs[i]? = some cl → cl.sock = 0 → cl.key = Key.empty
  keys : ∀ (i j : ℕ) (cl₁ cl₂ : Client), cs[i]? = some cl₁ → cs[j]? = some cl₂ →
    cl₁.sock ≠ 0 → cl₂.sock ≠ 0 → cl₁.key ≠ Key.empty → cl₁.key = cl₂.key → i = j

/-- A thread agrees with the client table and the open descriptors. -/
structure Conn (s : Shared) (th : Thread) : Prop where
  fd : ∀ x, th.fd = some x → x ≠ 0 ∧ x ∈ s.openFds
  slot : ∀ x, th.handles = some x → ∃ (i : ℕ) (cl : Client), s.clients[i]? = some cl ∧
    cl.sock = x ∧ ∀ k, th.slotKey = some k → cl.key = k
  noSlot : ∀ x, th.fd = some x → th.handles = none →
    ∀ (i : ℕ) (cl : Client), s.clients[i]? = some cl → cl.sock ≠ x
  free : ∀ k, th.pending = some k → k ≠ Key.empty →
    ∀ (i : ℕ) (cl : Client), s.clients[i]? = some cl → cl.sock ≠ 0 → cl.key ≠ k

/-- The key a login is about to append. -/
def Thread.appends : Thread → Option Key
  | .login _ (.append key _) => some key
  | _ => none

/-- A key about to be appended is new. -/
def AppendsNew (s : Shared) (th : Thread) : Prop :=
  ∀ k, th.appends = some k → ∀ r ∈ s.users, r.key ≠ k

/-- The invariant of guarded runs. -/
structure Sessions (p : Server) : Prop where
  accounts : Accounts p
  conns : Pool.Inv (fun s => Slots s.clients s.openFds) Conn p
  records : Pool.Inv (fun s => (s.users.map (·.key)).Nodup) AppendsNew p
  fds : Pool.InjOn Thread.fd p.threads
  held : Pool.InjOn Thread.held p.threads

theorem fd_of_handles (h : th.handles = some x) : th.fd = some x := by
  cases th with
  | disconnect sock pc => cases pc <;> first | exact h | cases h
  | _ => first | exact h | cases h

theorem handles_of_held (h : th.held = some k) : ∃ x, th.handles = some x := by
  cases th <;> first | exact ⟨_, rfl⟩ | cases h

/-- A key that has passed the check is in the slot, or its registration is pending. -/
theorem held_cases (h : th.held = some k) :
    th.slotKey = some k ∨ (th.pending = some k ∧ th.slotKey = some Key.empty) := by
  cases th with
  | login sock pc =>
    cases pc <;> cases h <;> first | exact .inl rfl | exact .inr ⟨rfl, rfl⟩
  | session sock key pc => exact .inl h
  | _ => cases h

theorem held_of_pending (h : th.pending = some k) : th.held = some k := by
  cases th with
  | login sock pc => cases pc <;> first | exact h | cases h
  | _ => cases h

theorem Slots.uniq {fds : List ℕ} (hS : Slots cs fds) (hi : cs[i]? = some cl)
    (hcl : cl.sock = sock) (h0 : sock ≠ 0) (j : ℕ) (d : Client) (hj : cs[j]? = some d)
    (hd : d.sock = sock) : j = i := hS.inj j i d cl hj hi (hd ▸ h0) (hd.trans hcl.symm)

/-- A slot may be freed, or given a connection and a key that no other slot has. -/
theorem Slots.set {fds : List ℕ} (hS : Slots cs fds) (hfree : cl.sock = 0 → cl.key = Key.empty)
    (hsock : cl.sock ≠ 0 → cl.sock ∈ fds ∧ ∀ (j : ℕ) (d : Client), j ≠ i → cs[j]? = some d →
      d.sock ≠ cl.sock)
    (hkey : cl.sock ≠ 0 → cl.key ≠ Key.empty → ∀ (j : ℕ) (d : Client), j ≠ i → cs[j]? = some d →
      d.sock ≠ 0 → d.key ≠ cl.key) : Slots (cs.set i cl) fds where
  inj j k d₁ d₂ hj hk h0 he := by
    rcases getElem?_set_cases hj with ⟨rfl, rfl⟩ | ⟨hji, hj'⟩ <;>
      rcases getElem?_set_cases hk with ⟨rfl, rfl⟩ | ⟨hki, hk'⟩
    · rfl
    · exact absurd he.symm ((hsock h0).2 k d₂ hki hk')
    · exact absurd he ((hsock (he ▸ h0)).2 j d₁ hji hj')
    · exact hS.inj j k d₁ d₂ hj' hk' h0 he
  fd j d hj h0 := by
    rcases getElem?_set_cases hj with ⟨rfl, rfl⟩ | ⟨-, hj⟩
    · exact (hsock h0).1
    · exact hS.fd j d hj h0
  free j d hj h0 := by
    rcases getElem?_set_cases hj with ⟨rfl, rfl⟩ | ⟨-, hj⟩
    · exact hfree h0
    · exact hS.free j d hj h0
  keys j k d₁ d₂ hj hk h₁ h₂ hne he := by
    rcases getElem?_set_cases hj with ⟨rfl, rfl⟩ | ⟨hji, hj'⟩ <;>
      rcases getElem?_set_cases hk with ⟨rfl, rfl⟩ | ⟨hki, hk'⟩
    · rfl
    · exact absurd he.symm (hkey h₁ hne k d₂ hki hk' h₂)
    · exact absurd he (hkey h₂ (he ▸ hne) j d₁ hji hj' h₁)
    · exact hS.keys j k d₁ d₂ hj' hk' h₁ h₂ hne he

/-! ### One step -/

/-- The slots after a step. -/
theorem slots_step {new : List Thread} (hS : Slots s.clients s.openFds) (hC : Conn s th)
    (h : ConnStep s th s' th' new) : Slots s'.clients s'.openFds := by
  cases h with
  | quiet hclients hfds => rwa [hclients, hfds]
  | reject sock _ _ hclients hfds | check sock key _ _ _ hclients hfds => rwa [hclients, hfds]
  | accept sock _ _ _ _ hfds hclients =>
    rw [hclients, hfds]
    exact ⟨hS.inj, fun i cl hi h0 => List.mem_cons_of_mem _ (hS.fd i cl hi h0), hS.free, hS.keys⟩
  | close sock hth _ hfds hclients =>
    rw [hclients, hfds]
    refine ⟨hS.inj, fun i cl hi h0 => ?_, hS.free, hS.keys⟩
    exact (List.mem_erase_of_ne (hC.noSlot sock hth.1 hth.2 i cl hi)).2 (hS.fd i cl hi h0)
  | add sock hth _ _ hclients hfds =>
    subst hth
    obtain ⟨i, cl, hi, h0, hcs⟩ := clientAdd_eq_some hclients
    rw [hcs, hfds]
    refine hS.set (fun h => absurd h (hC.fd sock rfl).1) (fun _ => ⟨(hC.fd sock rfl).2, ?_⟩) ?_
    · exact fun j d _ hj => hC.noSlot sock rfl rfl j d hj
    · exact fun _ hne => absurd (hS.free i cl hi h0) hne
  | register sock key rec hth _ hclients hfds =>
    subst hth
    have h0 := (hC.fd sock rfl).1
    obtain ⟨i, cl, hi, hcl, -⟩ := hC.slot sock rfl
    rw [hclients, clientRegister_eq hi hcl (hS.uniq hi hcl h0), hfds]
    refine hS.set (fun h => absurd (hcl.symm.trans h) h0) (fun _ => ⟨?_, fun j d hj hd he => ?_⟩)
      fun _ hne j d _ hd hd0 => hC.free key rfl hne j d hd hd0
    · exact hS.fd i cl hi (hcl.symm ▸ h0)
    · exact hj (hS.uniq hi hcl h0 j d hd (he.trans hcl))
  | remove sock hth _ hclients hfds =>
    subst hth
    have h0 := (hC.fd sock rfl).1
    obtain ⟨i, cl, hi, hcl, -⟩ := hC.slot sock rfl
    rw [hclients, clientRemove_eq hi hcl (hS.uniq hi hcl h0), hfds]
    exact hS.set (fun _ => rfl) (fun h => absurd rfl h) fun h => absurd rfl h

theorem slotKey_of_fd (h : th.fd = none) : th.handles = none ∧ th.pending = none := by
  cases th <;> first | exact ⟨rfl, rfl⟩ | cases h

/-- The thread that ran. -/
theorem conn_own {new : List Thread} (hS : Slots s.clients s.openFds) (hC : Conn s th)
    (h : ConnStep s th s' th' new) : Conn s' th' := by
  cases h with
  | quiet hclients hfds hfd hhandles hlost hslot hheld hpending hnew =>
    refine ⟨fun x hx => hfds ▸ hC.fd x (hfd x hx), fun x hx => ?_, fun x hx hh => ?_,
      fun k hk => hclients ▸ hC.free k (hpending k hk)⟩
    · obtain ⟨i, cl, hi, hcl, hkey⟩ := hC.slot x (hhandles x hx)
      exact ⟨i, cl, hclients ▸ hi, hcl, fun k hk => hkey k (hslot k hk)⟩
    · exact hclients ▸ hC.noSlot x (hfd x hx) (hlost hh)
  | accept sock _ hth' h0 hfresh hfds hclients =>
    subst hth'
    refine ⟨fun x hx => ?_, nofun, fun x hx _ i cl hi he => ?_, nofun⟩
    · cases hx
      exact ⟨h0, by simp [hfds]⟩
    · cases hx
      rw [hclients] at hi
      exact hfresh (he ▸ hS.fd i cl hi (he ▸ h0))
  | add sock _ hth' => subst hth'; exact ⟨nofun, nofun, nofun, nofun⟩
  | reject sock hth hth' hclients hfds =>
    subst hth hth'
    exact ⟨fun x hx => hfds ▸ hC.fd x hx, nofun, fun x hx hh =>
      hclients ▸ hC.noSlot x hx rfl, nofun⟩
  | check sock key hth hth' hdup hclients hfds =>
    subst hth hth'
    have h0 := (hC.fd sock rfl).1
    obtain ⟨i, cl, hi, hcl, hkey⟩ := hC.slot sock rfl
    refine ⟨fun x hx => hfds ▸ hC.fd x hx, fun x hx => hclients ▸ hC.slot x hx, nofun,
      fun k hk hne j d hj hd => ?_⟩
    cases hk
    rw [hclients] at hj
    by_cases hds : d.sock = sock
    · obtain rfl := hS.uniq hi hcl h0 j d hj hds
      rw [hi] at hj
      cases hj
      exact hkey Key.empty rfl ▸ hne.symm
    · exact clientDuplicate_eq_false.1 hdup d (List.mem_of_getElem? hj) hd hds
  | register sock key rec hth hth' hclients hfds =>
    subst hth hth'
    have h0 := (hC.fd sock rfl).1
    obtain ⟨i, cl, hi, hcl, -⟩ := hC.slot sock rfl
    refine ⟨fun x hx => hfds ▸ hC.fd x hx, fun x hx => ?_, nofun, nofun⟩
    cases hx
    rw [hclients, clientRegister_eq hi hcl (hS.uniq hi hcl h0)]
    refine ⟨i, { cl with key := key }, ?_, hcl, fun k hk => by cases hk; rfl⟩
    exact List.getElem?_set_self (List.getElem?_eq_some_iff.1 hi).1
  | remove sock hth hth' hclients hfds =>
    subst hth hth'
    have h0 := (hC.fd sock rfl).1
    obtain ⟨i, cl, hi, hcl, -⟩ := hC.slot sock rfl
    refine ⟨fun x hx => hfds ▸ hC.fd x hx, nofun, fun x hx _ j d hj he => ?_, nofun⟩
    cases hx
    rw [hclients, clientRemove_eq hi hcl (hS.uniq hi hcl h0)] at hj
    rcases getElem?_set_cases hj with ⟨-, rfl⟩ | ⟨hji, hj⟩
    · exact h0 he.symm
    · exact hji (hS.uniq hi hcl h0 j d hj he)
  | close sock _ hth' =>
    obtain ⟨h₁, h₂⟩ := slotKey_of_fd hth'
    exact ⟨by simp [hth'], by simp [h₁], by simp [hth'], by simp [h₂]⟩

/-- A thread that did not run. -/
theorem conn_frame {new : List Thread} {u : Thread} (hS : Slots s.clients s.openFds)
    (hC : Conn s th) (hU : Conn s u) (h : ConnStep s th s' th' new)
    (hfd : ∀ x, th.fd = some x → u.fd ≠ some x) (hheld : ∀ k, th.held = some k → u.held ≠ some k) :
    Conn s' u := by
  -- a slot of another connection can be rewritten without harm
  have hslot : ∀ {i : ℕ} {cl : Client}, s.clients[i]? = some cl →
      (∀ x, u.handles = some x → cl.sock ≠ x) → ∀ d : Client, ∀ x, u.handles = some x →
      ∃ (j : ℕ) (e : Client), (s.clients.set i d)[j]? = some e ∧ e.sock = x ∧
        ∀ k, u.slotKey = some k → e.key = k := by
    intro i cl hi hne d x hx
    obtain ⟨j, e, hj, he, hk⟩ := hU.slot x hx
    refine ⟨j, e, ?_, he, hk⟩
    have hij : i ≠ j := by
      rintro rfl
      rw [hi] at hj
      cases hj
      exact hne x hx he
    rw [List.getElem?_set_ne hij, hj]
  cases h with
  | quiet hclients hfds =>
    exact ⟨hfds ▸ hU.fd, hclients ▸ hU.slot, hclients ▸ hU.noSlot, hclients ▸ hU.free⟩
  | reject sock _ _ hclients hfds | check sock key _ _ _ hclients hfds =>
    exact ⟨hfds ▸ hU.fd, hclients ▸ hU.slot, hclients ▸ hU.noSlot, hclients ▸ hU.free⟩
  | accept sock _ _ _ _ hfds hclients =>
    refine ⟨fun x hx => ⟨(hU.fd x hx).1, ?_⟩, hclients ▸ hU.slot, hclients ▸ hU.noSlot,
      hclients ▸ hU.free⟩
    rw [hfds]
    exact List.mem_cons_of_mem _ (hU.fd x hx).2
  | close sock hth _ hfds hclients =>
    refine ⟨fun x hx => ⟨(hU.fd x hx).1, ?_⟩, hclients ▸ hU.slot, hclients ▸ hU.noSlot,
      hclients ▸ hU.free⟩
    rw [hfds]
    refine (List.mem_erase_of_ne ?_).2 (hU.fd x hx).2
    rintro rfl
    exact hfd x hth.1 hx
  | add sock hth _ _ hclients hfds =>
    subst hth
    obtain ⟨i, cl, hi, h0, hcs⟩ := clientAdd_eq_some hclients
    refine ⟨hfds ▸ hU.fd, ?_, fun x hx hh j d hj he => ?_, fun k hk hne j d hj hd => ?_⟩
    · rw [hcs]
      exact hslot hi (fun x hx he => (hU.fd x (fd_of_handles hx)).1 (he ▸ h0)) _
    · rw [hcs] at hj
      rcases getElem?_set_cases hj with ⟨rfl, rfl⟩ | ⟨-, hj⟩
      · exact hfd x (by rw [← he]; rfl) hx
      · exact hU.noSlot x hx hh j d hj he
    · rw [hcs] at hj
      rcases getElem?_set_cases hj with ⟨rfl, rfl⟩ | ⟨-, hj⟩
      · exact hS.free j cl hi h0 ▸ hne.symm
      · exact hU.free k hk hne j d hj hd
  | register sock key rec hth _ hclients hfds =>
    subst hth
    have h0 := (hC.fd sock rfl).1
    obtain ⟨i, cl, hi, hcl, -⟩ := hC.slot sock rfl
    rw [clientRegister_eq hi hcl (hS.uniq hi hcl h0)] at hclients
    refine ⟨hfds ▸ hU.fd, ?_, fun x hx hh j d hj he => ?_, fun k hk hne j d hj hd => ?_⟩
    · rw [hclients]
      exact hslot hi (fun x hx he => hfd x (by rw [← he, hcl]; rfl) (fd_of_handles hx)) _
    · rw [hclients] at hj
      rcases getElem?_set_cases hj with ⟨rfl, rfl⟩ | ⟨-, hj⟩
      · exact hU.noSlot x hx hh j cl hi he
      · exact hU.noSlot x hx hh j d hj he
    · rw [hclients] at hj
      rcases getElem?_set_cases hj with ⟨rfl, rfl⟩ | ⟨-, hj⟩
      · rintro rfl
        exact hheld key rfl (held_of_pending hk)
      · exact hU.free k hk hne j d hj hd
  | remove sock hth _ hclients hfds =>
    subst hth
    have h0 := (hC.fd sock rfl).1
    obtain ⟨i, cl, hi, hcl, -⟩ := hC.slot sock rfl
    rw [clientRemove_eq hi hcl (hS.uniq hi hcl h0)] at hclients
    refine ⟨hfds ▸ hU.fd, ?_, fun x hx hh j d hj he => ?_, fun k hk hne j d hj hd => ?_⟩
    · rw [hclients]
      exact hslot hi (fun x hx he => hfd x (by rw [← he, hcl]; rfl) (fd_of_handles hx)) _
    · rw [hclients] at hj
      rcases getElem?_set_cases hj with ⟨rfl, rfl⟩ | ⟨-, hj⟩
      · exact (hU.fd x hx).1 he.symm
      · exact hU.noSlot x hx hh j d hj he
    · rw [hclients] at hj
      rcases getElem?_set_cases hj with ⟨rfl, rfl⟩ | ⟨-, hj⟩
      · exact absurd rfl hd
      · exact hU.free k hk hne j d hj hd

/-- A thread that was started. -/
theorem conn_new {new : List Thread} {u : Thread} (hS : Slots s.clients s.openFds) (hC : Conn s th)
    (h : ConnStep s th s' th' new) (hu : u ∈ new) : Conn s' u := by
  have hnone : u.fd = none → Conn s' u := by
    intro hu
    obtain ⟨h₁, h₂⟩ := slotKey_of_fd hu
    exact ⟨by simp [hu], by simp [h₁], by simp [hu], by simp [h₂]⟩
  cases h with
  | quiet _ _ _ _ _ _ _ _ hnew => exact hnone (hnew u hu)
  | add sock hth _ hnew hclients hfds =>
    subst hth hnew
    obtain rfl := List.mem_singleton.1 hu
    obtain ⟨i, cl, hi, h0, hcs⟩ := clientAdd_eq_some hclients
    refine ⟨fun x hx => hfds ▸ hC.fd x hx, fun x hx => ?_, nofun, nofun⟩
    cases hx
    rw [hcs]
    refine ⟨i, { cl with sock := sock }, ?_, rfl, fun k hk => ?_⟩
    · exact List.getElem?_set_self (List.getElem?_eq_some_iff.1 hi).1
    · cases hk
      exact hS.free i cl hi h0
  | _ => simp_all

section

variable {p p' : Server} {t : ℕ} {new : List Thread}

/-- Descriptors are answered for by one thread. -/
theorem fds_step (hI : ∀ u ∈ p.threads, ∀ x, u.fd = some x → x ∈ p.shared.openFds)
    (hF : Pool.InjOn Thread.fd p.threads) (hth : p.threads[t]? = some th)
    (h : ConnStep p.shared th s' th' new) :
    Pool.InjOn Thread.fd (p.threads.set t th' ++ new) := by
  have hset : (∀ x, th'.fd = some x → th.fd = some x) →
    Pool.InjOn Thread.fd (p.threads.set t th') :=
    fun hfd => hF.set hth fun x hx => .inl (hfd x hx)
  cases h with
  | quiet _ _ hfd _ _ _ _ _ hnew => exact (hset hfd).append hnew
  | accept sock _ hth' h0 hfresh hfds hclients hnew =>
    subst hth' hnew
    refine (hF.set hth fun x hx => .inr fun v hv hfv => ?_).append (by simp)
    cases hx
    exact hfresh (hI v hv _ hfv)
  | add sock hth₁ hth' hnew =>
    subst hth₁ hth' hnew
    refine (hset nofun).concat fun x hx v hv hfv => ?_
    cases hx
    obtain ⟨j, hj⟩ := List.getElem?_of_mem hv
    rcases getElem?_set_cases hj with ⟨-, rfl⟩ | ⟨hjt, hj⟩
    · cases hfv
    · exact hjt (hF j t v _ sock hj hth hfv rfl)
  | reject sock hth₁ hth' _ _ hnew | check sock key hth₁ hth' _ _ _ hnew
  | register sock key rec hth₁ hth' _ _ hnew | remove sock hth₁ hth' _ _ hnew =>
    subst hth₁ hth' hnew
    exact (hset fun _ hx => hx).append (by simp)
  | close sock _ hth' _ _ hnew =>
    subst hnew
    exact (hset (by simp [hth'])).append (by simp)

theorem held_of_fd {u : Thread} (h : u.fd = none) : u.held = none := by
  cases u <;> first | rfl | cases h

/-- A key that has passed the check is held by one handler. -/
theorem held_step (hG : LoginGuard p (.run t c)) (hI : Sessions p) (hth : p.threads[t]? = some th)
    (h : ConnStep p.shared th s' th' new) :
    Pool.InjOn Thread.held (p.threads.set t th' ++ new) := by
  have hset : (∀ k, th'.held = some k → th.held = some k) →
      Pool.InjOn Thread.held (p.threads.set t th') :=
    fun hheld => hI.held.set hth fun x hx => .inl (hheld x hx)
  cases h with
  | quiet _ _ _ _ _ _ hheld _ hnew =>
    exact (hset hheld).append fun u hu => held_of_fd (hnew u hu)
  | accept sock hth₁ hth' _ _ _ _ hnew | reject sock hth₁ hth' _ _ hnew
  | register sock key rec hth₁ hth' _ _ hnew | remove sock hth₁ hth' _ _ hnew =>
    subst hth₁ hth' hnew
    exact (hset fun _ hx => hx).append (by simp)
  | add sock hth₁ hth' hnew =>
    subst hth₁ hth' hnew
    exact (hset nofun).append fun u hu => by rw [List.mem_singleton.1 hu]; rfl
  | close sock hth₁ hth' _ _ hnew =>
    subst hnew
    exact (hset (by simp [held_of_fd hth'])).append (by simp)
  | check sock key hth₁ hth' hdup _ _ hnew =>
    subst hth₁ hth' hnew
    refine (hI.held.set hth fun k hk => .inr fun v hv hheld => ?_).append (by simp)
    cases hk
    obtain ⟨j, hj⟩ := List.getElem?_of_mem hv
    -- the other handler has the key in its slot, where the check has seen it
    have hslot : v.slotKey = some key := by
      rcases held_cases hheld with hs | ⟨hp, hs⟩
      · exact hs
      · by_cases hne : key = Key.empty
        · rw [hs, hne]
        · exact absurd hp (hG.alone _ hth key rfl hne v hv)
    obtain ⟨x, hx⟩ := handles_of_held hheld
    obtain ⟨i, cl, hi, hcl, hkey⟩ := (hI.conns.thread j v hj).slot x hx
    have hx0 := ((hI.conns.thread j v hj).fd x (fd_of_handles hx)).1
    refine clientDuplicate_eq_false.1 hdup cl (List.mem_of_getElem? hi) (hcl ▸ hx0) ?_
      (hkey key hslot)
    rintro he
    obtain rfl := hI.fds j t v _ x hj hth (fd_of_handles hx) (by rw [← hcl, he]; rfl)
    rw [hth] at hj
    cases hj
    cases hheld

/-- Records keep different keys. -/
theorem records_step (hG : LoginGuard p (.run t c)) (hI : Sessions p)
    (h : server.next p (.run t c) = some p') :
    Pool.Inv (fun s => (s.users.map (·.key)).Nodup) AppendsNew p' := by
  refine Pool.inv_run hI.records h (fun th sh th' new hth hs => ?_)
    fun th sh th' new hth hs j u hj hu hnew => ?_
  · obtain ⟨a, r, ha, hr, rfl, rfl⟩ := threadStep_eq_some.1 hs
    have hA := hI.accounts.thread t th hth
    refine ⟨?_, fun k hk => ?_, fun u hu => ?_⟩
    · rcases users_keys hA (users_step ha ⟨r, hr, rfl⟩) with hsame | ⟨sock, key, rec, rfl, happ⟩
      · rw [show sh.users.map (·.key) = p.shared.users.map (·.key) from
          List.ext_getElem? fun i => by simpa [keyAt] using hsame i]
        exact hI.records.shared
      · rw [happ, List.map_append, List.nodup_append]
        refine ⟨hI.records.shared, List.nodup_singleton _, ?_⟩
        rintro _ hold _ hnew rfl
        obtain ⟨r, hr, hk⟩ := List.mem_map.1 hold
        refine hI.records.thread t _ hth key rfl r hr (hk.trans ?_)
        rw [List.mem_singleton.1 hnew]
        exact hA.append
    · have ho := thread_origin ha ⟨r, hr, rfl⟩
      generalize a.next r = th' at hk ho
      cases th' with
      | login sock pc' =>
        obtain ⟨pc, rfl, hs⟩ := ho
        cases pc' with
        | append key rec =>
          cases hk
          obtain ⟨rfl, -, hf⟩ := login_append hs
          obtain ⟨r', hr', -⟩ := hs
          obtain ⟨rfl, -⟩ := exec_find hr'
          cases ha
          exact userdbFind_eq_none.1 (hf (hG.db.ok hth rfl))
        | _ => cases hk
      | _ => cases hk
    · obtain ⟨n, rfl⟩ | ⟨sock, -, rfl⟩ := spawned_start hu
      · cases n <;> rintro _ ⟨⟩
      · rintro _ ⟨⟩
  · obtain ⟨a, r, ha, hr, rfl, rfl⟩ := threadStep_eq_some.1 hs
    have hA := hI.accounts.thread t th hth
    intro k hk rec hrec
    rcases users_keys hA (users_step ha ⟨r, hr, rfl⟩) with hsame | ⟨sock, key, rec', rfl, happ⟩
    · obtain ⟨i, hi⟩ := List.getElem?_of_mem hrec
      obtain ⟨r₀, hr₀, hk₀⟩ :=
        keyAt_eq_some.1 ((hsame i).symm.trans (keyAt_eq_some.2 ⟨rec, hi, rfl⟩))
      exact hk₀ ▸ hnew k hk r₀ (List.mem_of_getElem? hr₀)
    · rw [happ, List.mem_append, List.mem_singleton] at hrec
      rcases hrec with hrec | rfl
      · exact hnew k hk rec hrec
      · rw [show rec.key = key from hA.append]
        rintro rfl
        have hheld : u.held = some key := by
          cases u with
          | login sock pc => cases pc <;> first | exact hk | cases hk
          | _ => cases hk
        exact hj (hI.held j t u _ key hu hth hheld rfl)

end

/-- **The invariant is kept.** -/
theorem sessions_step {p p' : Server} {l : Label} (hI : Sessions p) (hG : LoginGuard p l)
    (h : server.next p l = some p') : Sessions p' := by
  have hA := accounts_step hI.accounts hG.db h
  cases l with
  | env e =>
    obtain rfl := Pool.next_env.1 h
    refine ⟨hA, ⟨hI.conns.shared, fun t th hth => ?_⟩,
      ⟨hI.records.shared, fun t th hth => hI.records.thread t th hth⟩, hI.fds, hI.held⟩
    have hC := hI.conns.thread t th hth
    exact ⟨hC.fd, hC.slot, hC.noSlot, hC.free⟩
  | run t c =>
    refine ⟨hA, ?_, records_step hG hI h, ?_, ?_⟩
    · refine Pool.inv_run hI.conns h (fun th sh th' new hth hs => ?_)
        fun th sh th' new hth hs j u hj hu hC => ?_
      · obtain ⟨a, r, ha, hr, rfl, rfl⟩ := threadStep_eq_some.1 hs
        have hcs := conn_step ha hr
        have hC := hI.conns.thread t th hth
        exact ⟨slots_step hI.conns.shared hC hcs, conn_own hI.conns.shared hC hcs,
          fun u hu => conn_new hI.conns.shared hC hcs hu⟩
      · obtain ⟨a, r, ha, hr, rfl, rfl⟩ := threadStep_eq_some.1 hs
        refine conn_frame hI.conns.shared (hI.conns.thread t th hth) hC (conn_step ha hr) ?_ ?_
        · exact fun x hx hux => hj (hI.fds j t u th x hu hth hux hx)
        · exact fun k hk huk => hj (hI.held j t u th k hu hth huk hk)
    all_goals obtain ⟨th, a, r, hth, ha, hr, hthreads⟩ := server_run h
    all_goals rw [hthreads]
    · refine fds_step (fun u hu x hx => ?_) hI.fds hth (conn_step ha hr)
      obtain ⟨j, hj⟩ := List.getElem?_of_mem hu
      exact ((hI.conns.thread j u hj).fd x hx).2
    · exact held_step hG hI hth (conn_step ha hr)

theorem sessions_boot (cwd : Dir) (files : Files) {users : UserDb} (clock : ℕ)
    (h : (users.map (·.key)).Nodup) : Sessions (boot cwd files users clock) where
  accounts := accounts_boot cwd files users clock
  conns := by
    have hfree : ∀ (i : ℕ) (cl : Client), (List.replicate maxClients ({} : Client))[i]? = some cl →
        cl = {} := fun i cl hi => List.eq_of_mem_replicate (List.mem_of_getElem? hi)
    refine ⟨⟨fun i j cl₁ cl₂ hi _ h0 => ?_, fun i cl hi h0 => ?_, fun i cl hi _ => ?_,
      fun i j cl₁ cl₂ hi _ h0 => ?_⟩, fun t th hth => ?_⟩
    · exact absurd (by rw [hfree i cl₁ hi]) h0
    · exact absurd (by rw [hfree i cl hi]) h0
    · rw [hfree i cl hi]
    · exact absurd (by rw [hfree i cl₁ hi]) h0
    · obtain rfl := List.mem_singleton.1 (List.mem_of_getElem? hth)
      exact ⟨nofun, nofun, nofun, nofun⟩
  records := ⟨h, fun t th hth => by
    obtain rfl := List.mem_singleton.1 (List.mem_of_getElem? hth)
    exact nofun⟩
  fds i j u v x hi _ hu := by
    obtain rfl := List.mem_singleton.1 (List.mem_of_getElem? hi)
    cases hu
  held i j u v x hi _ hu := by
    obtain rfl := List.mem_singleton.1 (List.mem_of_getElem? hi)
    cases hu

/-! ### One session for each key -/

theorem Sessions.one {p : Server} (hI : Sessions p) : OneSession p where
  slots i j cl₁ cl₂ hi hj h₁ h₂ hne he := hI.conns.shared.keys i j cl₁ cl₂ hi hj h₁ h₂ hne he
  loops t₁ t₂ _ _ key _ _ h₁ h₂ := hI.held t₁ t₂ _ _ key h₁ h₂ rfl rfl
  records := hI.records.shared

/-- **One session and one record for each key** in every state of a guarded run that starts with one
record for each key. -/
theorem oneSession_of_guard {cwd : Dir} {files : Files} {users : UserDb} {clock : ℕ} {p : Server}
    (hnodup : (users.map (·.key)).Nodup)
    (hp : server.Reach LoginGuard (boot cwd files users clock) p) : OneSession p :=
  (hp.invariant (I := Sessions) (sessions_boot cwd files clock hnodup)
    fun _ _ _ _ hI hG hn => sessions_step hI hG hn).one

/-- Alice logs in; a second connection asks for her key and is refused, a third one is Bob's. -/
def loginScript : List Label :=
  startUp ++ connect 5 ++ connect 6 ++ connect 7 ++ logIn 2 (Key.ofBytes (utf8 "alice")) ++
    receive 3 (.login (Key.ofBytes (utf8 "alice"))) :: steps 3 4 ++
    logIn 4 (Key.ofBytes (utf8 "bob"))

theorem oneSession_alice : ∃ p, server.Reach LoginGuard freshBoot p ∧
    p.shared.users.length = 2 ∧ OneSession p := by
  obtain ⟨p, hp, hf⟩ := server.exists_reach_of_any LoginGuard freshBoot loginScript
    (fun p => p.shared.users.length == 2) (by decide +kernel)
  exact ⟨p, hp, by simpa using hf, oneSession_of_guard (by decide) hp⟩

/-- Two connections ask for the same new key, and both pass the check before either registers. -/
def doubleLoginScript : List Label :=
  startUp ++ connect 5 ++ connect 6 ++ receive 2 (.login (Key.ofBytes (utf8 "alice"))) ::
    receive 3 (.login (Key.ofBytes (utf8 "alice"))) :: steps 2 2 ++ steps 3 2 ++ steps 2 14 ++
    steps 3 14

/-- Without the guard a key gets two records. -/
theorem not_oneSession : ∃ p, server.Reach System.anyStep freshBoot p ∧ ¬ OneSession p := by
  obtain ⟨p, hp, hf⟩ := server.exists_reach_of_any System.anyStep freshBoot doubleLoginScript
    (fun p => p.shared.users.map (·.key) == List.replicate 2 (Key.ofBytes (utf8 "alice")))
    (by decide +kernel)
  refine ⟨p, hp, fun h => ?_⟩
  have hrec := h.records
  rw [eq_of_beq hf] at hrec
  exact absurd (List.nodup_replicate.1 hrec) (by decide)

end UnderFlow
