import UnderFlow.Server.Streams

/-!
# The login handshake

* `Handshake` : the first packet of a connection answers its login, and game events follow a
  `PKT_RES_LOGIN_OK`.
* `HandshakeGuard` : packets are published only while every connection they reach is logged in.
* `handshake_of_guard` : then `Handshake` holds in every state of a run.
* `not_handshake` : a chat reaches a connection that has not logged in.
-/

namespace UnderFlow

variable {s s' : Shared} {c : Choice} {th th' : Thread} {a : Action Thread} {p p' : Server}
  {t x : ℕ} {sock : ℕ} {key : Key} {hist ev : List ConnEvent} {pkt : Packet} {cs : List Client}

/-! ### Greetings -/

/-- The packet answers a login. -/
def Packet.isLoginReply : Packet → Bool
  | .loginOk _ _ _ | .loginFail _ _ => true
  | _ => false

/-- The packets `PKT_EVT_*`. -/
def Packet.isEvent : Packet → Bool
  | .chat _ _ | .marketSpawn _ _ _ _ | .marketRemove _ | .npcSpawn _ _ _ | .npcDespawn _
  | .newsLeak _ _ _ | .newsRecover _ | .rumorGlitch | .policeRaid _ _ | .gameOver _ | .victory _
  | .scoreboard _ _ _ | .goalUpdate _ => true
  | _ => false

/-- A packet may be written to a connection, after what has happened before. -/
structure Greeted (before : List ConnEvent) (x : ℕ) (pkt : Packet) : Prop where
  /-- The first packet is the answer to a login request. -/
  first : sent x before = [] → pkt.isLoginReply = true ∧ Asked x before
  /-- An event comes after the login was accepted. -/
  event : pkt.isEvent = true → Answered x before

/-- **The handshake**: every packet comes after the login it needs. -/
def Handshake : List ConnEvent → Prop := Along fun before e =>
  ∀ x pkt, e = .wrote x pkt → Greeted before x pkt

/-! ### When it holds -/

/-- The handler has sent `PKT_RES_LOGIN_OK`. -/
def Login.answered : Login → Bool
  | .marketSnapshot _ | .marketSend _ _ _ | .npcSnapshot _ | .npcSend _ _ _ | .frozenMask _
  | .frozenSend _ _ => true
  | _ => false

/-- The connection of a handler that has sent `PKT_RES_LOGIN_OK`; once the command loop is over, the
key in its slot tells. -/
def Thread.answered (cs : List Client) : Thread → Option ℕ
  | .login sock pc => if pc.answered then some sock else none
  | .session sock _ _ => some sock
  | .disconnect sock .remove =>
    if cs.any fun cl => cl.sock == sock && cl.key != Key.empty then some sock else none
  | _ => none

/-- A packet is published only while every connection it is written to is logged in. -/
structure HandshakeGuard (p : Server) (l : Label) : Prop where
  loggedIn : ∀ o ∈ opAt p l, ∀ x ∈ o.listeners p.shared,
    ∃ u ∈ p.threads, u.answered p.shared.clients = some x

instance (p : Server) (l : Label) : Decidable (HandshakeGuard p l) :=
  decidable_of_iff _ ⟨fun h => ⟨h⟩, fun h => h.loggedIn⟩

/-! ### Handlers -/

/-- The slot of the connection has no key. -/
def Keyless (x : ℕ) (cs : List Client) : Prop := ∀ cl ∈ cs, cl.sock = x → cl.key = Key.empty

/-- What has been written to the connection of a login. -/
def Login.Told (hist : List ConnEvent) (cs : List Client) (x : ℕ) : Login → Prop
  | .recv => sent x hist = [] ∧ Keyless x cs
  | .duplicate _ | .lookup _ | .append _ _ | .register _ _ | .refuse _ _ =>
    sent x hist = [] ∧ Asked x hist ∧ Keyless x cs
  | .mkdir _ _ | .goal _ _ | .reply _ _ _ => sent x hist = [] ∧ Asked x hist
  | _ => Answered x hist

/-- What the connection of a thread has been told. -/
def Thread.Told (hist : List ConnEvent) (cs : List Client) : Thread → Prop
  | .main (.add x) => sent x hist = []
  | .login x pc => pc.Told hist cs x
  | .session x _ _ => Answered x hist
  | .disconnect x .remove => Keyless x cs ∨ Answered x hist
  | _ => True

/-- The invariant of guarded runs. -/
structure Handshaking (p : Server) (hist : List ConnEvent) : Prop where
  connected : Connected p
  kept : Handshake hist
  told : ∀ u ∈ p.threads, u.Told hist p.shared.clients

/-- What has been written to a connection is kept by events of others. -/
theorem Login.Told.frame {cs' : List Client} {pc : Login} (h : pc.Told hist cs x)
    (hev : ∀ e ∈ ev, e.fd ≠ x) (hcs : Keyless x cs → Keyless x cs') :
    pc.Told (hist ++ ev) cs' x := by
  have hsent : sent x (hist ++ ev) = sent x hist := sent_append_of_ne hev
  have hacc : .accepted x ∉ ev := fun hmem => hev _ hmem rfl
  cases pc with
  | recv => exact ⟨hsent.trans h.1, hcs h.2⟩
  | duplicate _ | lookup _ | append _ _ | register _ _ | refuse _ _ =>
    exact ⟨hsent.trans h.1, h.2.1.append hacc, hcs h.2.2⟩
  | mkdir _ _ | goal _ _ | reply _ _ _ => exact ⟨hsent.trans h.1, h.2.append hacc⟩
  | _ => exact Answered.append h hacc

/-- An answered handler was told so. -/
theorem answered_of_told {u : Thread} (h : u.Told hist cs) (hx : u.answered cs = some x) :
    Answered x hist := by
  cases u with
  | login sock pc =>
    cases pc <;> cases hx <;> exact h
  | session sock key pc =>
    cases hx
    exact h
  | disconnect sock pc =>
    cases pc with
    | remove =>
      simp only [Thread.answered] at hx
      split_ifs at hx with hany
      cases hx
      obtain ⟨cl, hcl, hk⟩ := List.any_eq_true.1 hany
      simp only [Bool.and_eq_true, beq_iff_eq, bne_iff_ne] at hk
      exact h.resolve_left fun hno => hk.2 (hno cl hcl hk.1)
    | close => cases hx
  | _ => cases hx

theorem fd_of_answered {u : Thread} (h : u.answered cs = some x) : u.fd = some x := by
  cases u with
  | login sock pc => cases pc <;> first | exact h | cases h
  | session sock key pc => exact h
  | disconnect sock pc =>
    cases pc with
    | remove =>
      simp only [Thread.answered] at h
      split_ifs at h
      exact h
    | close => cases h
  | _ => cases h

theorem told_of_answered {u : Thread} {cs' : List Client} (hx : u.answered cs = some x)
    (h : Answered x hist) : u.Told hist cs' := by
  cases u with
  | login sock pc => cases pc <;> cases hx <;> exact h
  | session sock key pc =>
    cases hx
    exact h
  | disconnect sock pc =>
    cases pc with
    | remove =>
      simp only [Thread.answered] at hx
      split_ifs at hx
      cases hx
      exact .inr h
    | close => cases hx
  | _ => cases hx

/-- **A thread that did not run**: nothing was written to its connection, or it is logged in. -/
theorem told_frame {u : Thread} {cs' : List Client} (h : u.Told hist cs)
    (hacc : ∀ x, u.fd = some x → .accepted x ∉ ev)
    (hcs : ∀ x, u.fd = some x → Keyless x cs → Keyless x cs')
    (hev : ∀ x, u.fd = some x → (∀ e ∈ ev, e.fd ≠ x) ∨ u.answered cs = some x) :
    u.Told (hist ++ ev) cs' := by
  have hans : ∀ x, u.fd = some x → u.answered cs = some x → u.Told (hist ++ ev) cs' :=
    fun x hx hu => told_of_answered hu ((answered_of_told h hu).append (hacc x hx))
  cases u with
  | main pc =>
    cases pc with
    | add x =>
      rcases hev x rfl with hne | hx
      · exact (sent_append_of_ne hne).trans h
      · exact hans x rfl hx
    | _ => trivial
  | login x pc =>
    rcases hev x rfl with hne | hx
    · exact Login.Told.frame h hne (hcs x rfl)
    · exact hans x rfl hx
  | session x key pc => exact Answered.append h (hacc x rfl)
  | disconnect x pc =>
    cases pc with
    | remove => exact h.imp (hcs x rfl) fun h => h.append (hacc x rfl)
    | close => trivial
  | _ => trivial

/-! ### One step -/

theorem accepted_of_mem {o : Op} (h : .accepted x ∈ o.connEvents s c) : o = .accept ∧ x = c.fd := by
  rcases connEvents_cases h with ⟨ho, he⟩ | ⟨_, _, _, _, he⟩ | ⟨_, _, _, he⟩ | ⟨_, _, _, he⟩
  · exact ⟨ho, by cases he; rfl⟩
  all_goals cases he

/-- Others' steps do not give a slot a key. -/
theorem keyless_step {new : List Thread} (hS : ConnStep s th s' th' new) (h0 : x ≠ 0)
    (hfd : th.fd ≠ some x) (h : Keyless x s.clients) : Keyless x s'.clients := by
  intro cl hcl hx
  cases hS with
  | quiet hclients | accept sock _ _ _ _ _ hclients | reject sock _ _ hclients
  | check sock key _ _ _ hclients | close sock _ _ _ hclients =>
    rw [hclients] at hcl
    exact h cl hcl hx
  | add sock hth _ _ hclients =>
    rcases mem_clientAdd hclients hcl with hold | ⟨hsock, -⟩
    · exact h cl hold hx
    · subst hth
      exact absurd (by rw [← hx, hsock]; rfl) hfd
  | register sock key rec hth _ hclients =>
    rw [hclients] at hcl
    rcases mem_clientRegister hcl with hold | hsock
    · exact h cl hold hx
    · subst hth
      exact absurd (by rw [← hx, hsock]; rfl) hfd
  | remove sock hth _ hclients =>
    rw [hclients] at hcl
    rcases mem_clientRemove hcl with hold | rfl
    · exact h cl hold hx
    · exact absurd hx.symm h0

theorem greeted_of_answered (h : Answered x hist) : Greeted hist x pkt where
  first hnil := by
    obtain ⟨id, money, goal, hmem⟩ := h
    rw [hnil] at hmem
    cases hmem
  event _ := h

/-- What a handler writes to its own connection. -/
theorem greeted_send (ha : th.action = some a) (hop : a.op = .packetSend x pkt)
    (h : th.Told hist cs) : Greeted hist x pkt := by
  have hfd : th.fd = some x := op_sock ha (by rw [hop]; rfl)
  cases th with
  | main pc =>
    cases ha
    cases pc with
    | add sock | reject sock => cases hop
    | _ => cases hfd
  | login sock pc =>
    cases ha
    cases hfd
    cases pc with
    | reply key rec goal =>
      cases hop
      exact ⟨fun _ => ⟨rfl, h.2⟩, nofun⟩
    | refuse code reason =>
      cases hop
      exact ⟨fun _ => ⟨rfl, h.2.1⟩, nofun⟩
    | marketSend key slot todo | npcSend key npc todo | frozenSend key mask =>
      exact greeted_of_answered h
    | _ => cases hop
  | session sock key pc =>
    cases hfd
    exact greeted_of_answered h
  | disconnect sock pc =>
    cases ha
    cases pc <;> cases hop
  | _ => cases hfd

/-- What a login was told when it goes on, or returns. -/
def Login.NextTold (hist : List ConnEvent) (cs : List Client) (x : ℕ) :
    Next Login (Option Key) → Prop
  | .cont pc => pc.Told hist cs x
  | .ret (some _) => Answered x hist
  | _ => Keyless x cs

/-- **The step of a login.** -/
theorem told_login {pc : Login} {n : Next Login (Option Key)}
    (hn : (clientLogin sock pc).Steps s c s' n) (h : pc.Told hist s.clients sock) :
    Login.NextTold (hist ++ (clientLogin sock pc).op.connEvents s c) s'.clients sock n := by
  have hclients : (∀ key rec, pc ≠ .register key rec) → s'.clients = s.clients := by
    intro hreg
    refine hn.frame.clients ?_
    cases pc <;> first | exact absurd rfl (hreg _ _) | simp [clientLogin]
  have hans : ∀ {x : ℕ}, Answered x hist → (clientLogin sock pc).op ≠ .accept →
      Answered x (hist ++ (clientLogin sock pc).op.connEvents s c) :=
    fun hx hop => hx.append fun hmem => hop (accepted_of_mem hmem).1
  obtain ⟨r, hr, rfl⟩ := hn
  cases pc with
  | recv =>
    rw [hclients (by rintro _ _ ⟨⟩)]
    cases hr
    simp only [clientLogin, Op.connEvents]
    rcases c.request with _ | req
    · exact h.2
    · cases req with
      | login key =>
        refine ⟨?_, ?_, h.2⟩
        · rw [sent_append (by simp)]
          simpa [ConnEvent.packet, ConnEvent.fd] using h.1
        · simp [Asked, connection_append, ConnEvent.fd]
      | _ =>
        rw [List.append_nil]
        exact h
  | duplicate key =>
    rw [hclients (by rintro _ _ ⟨⟩)]
    simp only [clientLogin, Op.connEvents, Op.deliveries, List.map_nil, List.append_nil]
    split_ifs <;> exact h
  | lookup key =>
    rw [hclients (by rintro _ _ ⟨⟩)]
    simp only [clientLogin, Op.connEvents, Op.deliveries, List.map_nil, List.append_nil]
    rcases r with rec | ⟨rec, off⟩
    · exact h
    · dsimp only
      split_ifs <;> exact h
  | append key rec =>
    rw [hclients (by rintro _ _ ⟨⟩)]
    simp only [clientLogin, Op.connEvents, Op.deliveries, List.map_nil, List.append_nil]
    exact h
  | register key rec =>
    simp only [clientLogin, Op.connEvents, Op.deliveries, List.map_nil, List.append_nil]
    exact ⟨h.1, h.2.1⟩
  | mkdir key rec | goal key rec =>
    simp only [clientLogin, Op.connEvents, Op.deliveries, List.map_nil, List.append_nil]
    exact h
  | reply key rec goal =>
    simp only [clientLogin, Op.connEvents, Op.deliveries, List.map_cons, List.map_nil]
    refine ⟨sock, rec.money, goal, ?_⟩
    rw [sent_append (by simp)]
    simp [ConnEvent.fd, ConnEvent.packet]
  | marketSnapshot key | npcSnapshot key =>
    have h' := hans h (by rintro ⟨⟩)
    cases r <;> exact h'
  | marketSend key slot todo | npcSend key npc todo =>
    have h' := hans h (by rintro ⟨⟩)
    cases todo <;> exact h'
  | frozenMask key =>
    have h' := hans h (by rintro ⟨⟩)
    simp only [clientLogin] at h' ⊢
    split_ifs <;> exact h'
  | frozenSend key mask => exact hans h (by rintro ⟨⟩)
  | refuse code reason =>
    rw [hclients (by rintro _ _ ⟨⟩)]
    exact h.2.2

/-- **The thread that ran.** -/
theorem told_own (hI : Handshaking p hist) (hth : p.threads[t]? = some th)
    (ha : th.action = some a) {r : a.op.Ret} (hr : a.op.exec p.shared c = some (s', r)) :
    (a.next r).Told (hist ++ a.op.connEvents p.shared c) s'.clients := by
  have h := hI.told th (List.mem_of_getElem? hth)
  have ho := thread_origin ha ⟨r, hr, rfl⟩
  have hmem : ∀ {x : ℕ}, Answered x hist → a.op ≠ .accept →
      Answered x (hist ++ a.op.connEvents p.shared c) :=
    fun hx hop => hx.append fun hmem => hop (accepted_of_mem hmem).1
  cases th with
  | login sock pc =>
    cases ha
    have hn := told_login ⟨r, hr, rfl⟩ h
    revert hn
    simp only [Action.map]
    rcases (clientLogin sock pc).next r with pc' | (_ | key) | _ <;> intro hn
    · exact hn
    · exact .inl hn
    · exact hn
    · exact .inl hn
  | session sock key pc =>
    cases ha
    have hans : Answered sock (hist ++ (clientLoop sock key pc).op.connEvents p.shared c) :=
      hmem h fun hop => by
        have hne : (clientLoop sock key pc).op.store ≠ some .openFds :=
          (clientLoop_within sock key pc).store_ne (by simp)
        exact hne (by rw [show (clientLoop sock key pc).op = .accept from hop]; rfl)
    simp only [Action.map]
    rcases (clientLoop sock key pc).next r with pc' | _ | _
    · exact hans
    · exact .inr hans
    · exact .inr hans
  | main pc =>
    cases ha
    cases pc with
    | accept =>
      simp only [Action.map, mainThread, Op.exec] at hr
      split_ifs at hr
      cases hr
      exact sent_accepted hist
    | add sock => cases r <;> trivial
    | startEvents => cases r <;> trivial
    | seed q =>
      simp only [Action.map, mainThread]
      rcases (seedMarketAndNpc q).next r with _ | _ | _ <;> trivial
    | _ => trivial
  | disconnect sock pc =>
    cases ha
    cases pc <;> trivial
  | _ =>
    generalize a.next r = th' at ho
    cases th' <;> simp_all [Thread.Origin, Thread.Told]

/-- A new handler waits for a login request. -/
theorem told_new (hI : Handshaking p hist) (hth : p.threads[t]? = some th)
    (ha : th.action = some a) {r : a.op.Ret} (hr : a.op.exec p.shared c = some (s', r)) :
    ∀ u ∈ a.op.spawned r, u.Told (hist ++ a.op.connEvents p.shared c) s'.clients := by
  intro u hu
  obtain ⟨n, rfl⟩ | ⟨sock, hop, rfl⟩ := spawned_start hu
  · cases n <;> trivial
  have hcs := conn_step ha hr
  cases hcs with
  | add x hth₁ _ hnew hclients =>
    subst hth₁
    cases ha
    rw [hnew, List.mem_singleton] at hu
    cases hu
    refine ⟨?_, fun cl hcl hx => ?_⟩
    · have hnil : sent sock hist = [] := hI.told _ (List.mem_of_getElem? hth)
      show sent sock (hist ++ []) = []
      rw [List.append_nil, hnil]
    · rcases mem_clientAdd hclients hcl with hold | ⟨-, free, hfree, h0, hk⟩
      · have h0 := (hI.connected.openFds _ (List.mem_of_getElem? hth) sock rfl).1
        refine absurd ?_ (hI.connected.not_slot hth rfl rfl)
        exact List.mem_map.2 ⟨cl, List.mem_filter.2 ⟨hold, by simpa [hx] using h0⟩, hx⟩
      · rw [hk]
        exact hI.connected.free free hfree h0
  | quiet _ _ _ _ _ _ _ _ hnew => cases hnew _ hu
  | accept x _ _ _ _ _ _ hnew | reject x _ _ _ _ hnew | check x key _ _ _ _ _ hnew
  | register x key rec _ _ _ _ hnew | remove x _ _ _ _ hnew | close x _ _ _ _ hnew =>
    rw [hnew] at hu
    cases hu

/-- **What a guarded step writes** keeps the promise. -/
theorem kept_wrote (hI : Handshaking p hist) (hG : HandshakeGuard p (.run t c))
    (hth : p.threads[t]? = some th) (ha : th.action = some a) :
    Handshake (hist ++ a.op.connEvents p.shared c) := by
  refine hI.kept.append fun pre e post heq x pkt he => ?_
  subst he
  have hmem : .wrote x pkt ∈ a.op.connEvents p.shared c := by simp [heq]
  rcases connEvents_cases hmem with ⟨-, he⟩ | ⟨_, _, _, _, he⟩ | ⟨y, q, hop, he⟩ | ⟨y, q, hy, he⟩
  · cases he
  · cases he
  · cases he
    have hpre : pre = [] := by
      rw [hop] at heq
      cases pre with
      | nil => rfl
      | cons f pre => simp [Op.connEvents, Op.deliveries] at heq
    rw [hpre, List.append_nil]
    exact greeted_send ha hop (hI.told th (List.mem_of_getElem? hth))
  · cases he
    obtain ⟨u, hu, hux⟩ := hG.loggedIn a.op (opAt_run hth ha) x hy
    refine greeted_of_answered ((answered_of_told (hI.told u hu) hux).append fun hacc => ?_)
    have hop := (accepted_of_mem (show .accepted x ∈ a.op.connEvents p.shared c by
      rw [heq]
      exact List.mem_append_left _ hacc)).1
    rw [hop] at hy
    cases hy

theorem handshaking_step {l : Label} (hI : Handshaking p hist) (hG : HandshakeGuard p l)
    (h : server.next p l = some p') : Handshaking p' (hist ++ connEventsAt p l) := by
  have hconn := connected_step hI.connected h
  cases l with
  | env e =>
    obtain rfl := Pool.next_env.1 h
    rw [show connEventsAt p (.env e) = [] from rfl, List.append_nil]
    exact ⟨hconn, hI.kept, hI.told⟩
  | run t c =>
    obtain ⟨th, a, r, hth, ha, hr, hthreads⟩ := server_run h
    have hev : connEventsAt p (.run t c) = a.op.connEvents p.shared c := by
      rw [connEventsAt, opAt_run hth ha]
      rfl
    rw [hev]
    refine ⟨hconn, kept_wrote hI hG hth ha, fun u hu => ?_⟩
    rw [hthreads] at hu
    obtain ⟨j, hj⟩ := List.getElem?_of_mem hu
    rcases Pool.getElem?_step hj with ⟨hjt, hold⟩ | ⟨-, rfl⟩ | hnew
    · have hmem := List.mem_of_getElem? hold
      have hother : ∀ x, u.fd = some x → th.fd ≠ some x :=
        fun x hx hthx => hjt (hI.connected.fds j t u th x hold hth hx hthx)
      have hfresh : ∀ x, u.fd = some x → .accepted x ∉ a.op.connEvents p.shared c := by
        intro x hx hacc
        obtain ⟨hop, rfl⟩ := accepted_of_mem hacc
        have hopen := (hI.connected.openFds u hmem c.fd hx).2
        obtain ⟨o, next⟩ := a
        cases hop
        simp only [Op.exec] at hr
        split_ifs at hr with hno
        exact hno (.inr hopen)
      refine told_frame (hI.told u hmem) hfresh (fun x hx => ?_) fun x hx => ?_
      · exact keyless_step (conn_step ha hr) (hI.connected.openFds u hmem x hx).1 (hother x hx)
      · by_cases hlisten : x ∈ a.op.listeners p.shared
        · -- the connection was logged in, by the guard
          obtain ⟨v, hv, hvx⟩ := hG.loggedIn a.op (opAt_run hth ha) x hlisten
          obtain ⟨i, hi⟩ := List.getElem?_of_mem hv
          obtain rfl := hI.connected.fds i j v u x hi hold (fd_of_answered hvx) hx
          rw [hi] at hold
          cases hold
          exact .inr hvx
        · refine .inl fun e he hex => ?_
          rcases connEvents_cases he with ⟨-, rfl⟩ | ⟨y, _, hop, _, rfl⟩ | ⟨y, _, hop, rfl⟩ |
            ⟨y, _, hy, rfl⟩ <;> cases hex
          · exact hfresh _ hx he
          · exact hother _ hx (op_sock ha (by rw [hop]; rfl))
          · exact hother _ hx (op_sock ha (by rw [hop]; rfl))
          · exact hlisten hy
    · exact told_own hI hth ha hr
    · exact told_new hI hth ha hr u hnew

theorem handshaking_boot (cwd : Dir) (files : Files) (users : UserDb) (clock : ℕ) :
    Handshaking (boot cwd files users clock) [] where
  connected := connected_boot cwd files users clock
  kept := along_nil
  told u hu := by
    obtain rfl := List.mem_singleton.1 hu
    trivial

/-! ### No packet before the greeting -/

/-- **The login handshake** is kept in guarded runs. -/
theorem handshake_of_guard {cwd : Dir} {files : Files} {users : UserDb} {clock : ℕ}
    {q : Server × List ConnEvent}
    (hq : streamServer.Reach (fun q l => HandshakeGuard q.1 l) (boot cwd files users clock, []) q) :
    Handshake q.2 :=
  (hq.invariant (I := fun q => Handshaking q.1 q.2) (handshaking_boot cwd files users clock)
    fun q l q' _ hI hG hn => by
      obtain ⟨hn, hhist⟩ := System.withHistory_next.1 hn
      rw [hhist]
      exact handshaking_step hI hG hn).kept

/-- Alice logs in and chats, then Bob connects and logs in. -/
def greetingScript : List Label :=
  startUp ++ connect 5 ++ logIn 2 (Key.ofBytes (utf8 "alice")) ++
    receive 2 (.chat (utf8 "hi")) :: steps 2 1 ++ connect 6 ++ logIn 3 (Key.ofBytes (utf8 "bob")) ++
    receive 2 (.chat (utf8 "hi")) :: steps 2 1

/-- Alice chats while Bob has not logged in. -/
def earlyChatScript : List Label :=
  startUp ++ connect 5 ++ logIn 2 (Key.ofBytes (utf8 "alice")) ++ connect 6 ++
    receive 2 (.chat (utf8 "hi")) :: steps 2 1

/-- A guarded run in which two players are sent a chat. -/
theorem handshake_alice : ∃ q,
    streamServer.Reach (fun q l => HandshakeGuard q.1 l) (freshBoot, []) q ∧
    (sent 6 q.2).getLast? = some (.chat (utf8 "alice") (utf8 "hi")) ∧ Handshake q.2 := by
  obtain ⟨q, hq, hf⟩ := streamServer.exists_reach_of_any (fun q l => HandshakeGuard q.1 l)
    (freshBoot, []) greetingScript
    (fun q => (sent 6 q.2).getLast? == some (.chat (utf8 "alice") (utf8 "hi"))) (by decide +kernel)
  exact ⟨q, hq, eq_of_beq hf, handshake_of_guard hq⟩

/-- Without the guard the first packet of a connection is a chat. -/
theorem not_handshake : ∃ q, streamServer.Reach System.anyStep (freshBoot, []) q ∧
    ¬ Handshake q.2 := by
  obtain ⟨q, hq, hf⟩ := streamServer.exists_reach_of_any System.anyStep (freshBoot, [])
    earlyChatScript (fun q => q.2.filter (fun e => e.fd = 6) ==
      [.accepted 6, .wrote 6 (.chat (utf8 "alice") (utf8 "hi"))]) (by decide +kernel)
  refine ⟨q, hq, fun h => ?_⟩
  have hmem : ∀ e ∈ q.2, e.fd = 6 →
      e ∈ [.accepted 6, .wrote 6 (.chat (utf8 "alice") (utf8 "hi"))] := by
    intro e he hfd
    rw [← eq_of_beq hf]
    simpa using ⟨he, hfd⟩
  have hwrote : .wrote 6 (.chat (utf8 "alice") (utf8 "hi")) ∈ q.2.filter (fun e => e.fd = 6) := by
    rw [eq_of_beq hf]
    exact List.mem_cons_of_mem _ List.mem_cons_self
  obtain ⟨before, after, heq⟩ := List.append_of_mem (List.mem_of_mem_filter hwrote)
  obtain ⟨id, money, goal, hans⟩ := (h before _ after heq 6 _ rfl).event rfl
  have hold : .wrote 6 (.loginOk id money goal) ∈ q.2 := by
    rw [heq]
    exact List.mem_append_left _ (wrote_of_sent hans)
  have hin := hmem _ hold rfl
  simp at hin

end UnderFlow
