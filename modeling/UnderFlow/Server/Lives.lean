import UnderFlow.Server.TableLock

/-!
# The life of a descriptor

A descriptor is accepted, served by one handler with one slot of the client table, and closed; then
its number may be accepted again.

* `Life.next` : what may happen to a descriptor, step by step; nothing is written to one that is
  not served, and none is closed that is not open.
* `TableKept` : every descriptor lives so, and the client table is right about it.
* `life_step` : what a step of a thread is in the life of descriptors.
-/

namespace UnderFlow

variable {s s' : Shared} {c : Choice} {th th' : Thread} {a : Action Thread} {p p' : LockServer}
  {q q' : Server} {o : Op} {l : Label} {t x sock : ℕ} {key : Key} {h : Holder} {cs : List Client}

/-! ### What happens to a descriptor -/

/-- What happens to a descriptor. -/
inductive TableEvent where
  /-- `accept` has returned the descriptor. -/
  | accepted (fd : ℕ)
  /-- The handler has read a login request. -/
  | asked (fd : ℕ) (key : Key)
  /-- The handler has written a packet. -/
  | wrote (fd : ℕ)
  /-- `main` has written the descriptor into `client_sockets`. -/
  | filled (fd : ℕ)
  /-- The handler has written the key into `active_keys`. -/
  | named (fd : ℕ) (key : Key)
  /-- `broadcast_packet` has written a packet. -/
  | published (fd : ℕ)
  /-- `unicast_to_key` has written a packet for a key. -/
  | told (fd : ℕ) (key : Key)
  /-- The handler has cleared its slot. -/
  | cleared (fd : ℕ)
  | closed (fd : ℕ)
  deriving DecidableEq

/-- The descriptor of an event. -/
def TableEvent.fd : TableEvent → ℕ
  | accepted fd | asked fd _ | wrote fd | filled fd | named fd _ | published fd | told fd _
  | cleared fd | closed fd => fd

/-- The events of an operation that does not need the mutex. -/
def Op.lifeEvents (c : Choice) : Op → List TableEvent
  | .accept => [.accepted c.fd]
  | .packetRecv sock =>
    match c.request with
    | some (.login key) => [.asked sock key]
    | _ => []
  | .packetSend sock _ => [.wrote sock]
  | .close sock => [.closed sock]
  | _ => []

/-- The events of the holder in its critical section. -/
def Holder.lifeEvents (h : Holder) (cs : List Client) : Op → List TableEvent
  | .clientAdd sock => if h.started then [.filled sock] else []
  | .clientRegister sock key => [.named sock key]
  | .clientRemove sock => [.cleared sock]
  | .broadcast _ =>
    match cs[h.visited]? with
    | some cl => if cl.sock ≠ 0 then [.published cl.sock] else []
    | none => []
  | .unicastToKey key _ =>
    match cs[h.visited]? with
    | some cl => if cl.sock ≠ 0 ∧ cl.key = key then [.told cl.sock key] else []
    | none => []
  | _ => []

/-- What a step does to descriptors, as a record. -/
def lifeEventsAt (p : LockServer) (l : Label) : List TableEvent :=
  match opAt p.pool l with
  | none => []
  | some o =>
    if o.locksClients then
      p.holder.elim [] fun h => h.lifeEvents p.pool.shared.clients o
    else o.lifeEvents (choiceOf l)

/-- The server with a record of its descriptors. -/
def lifeServer : System (LockServer × List TableEvent) Label := lockServer.withHistory lifeEventsAt

/-! ### What may happen to it -/

/-- How far a connection has come. -/
inductive Life where
  | closed
  /-- Accepted, with no slot yet; the key the connection has asked for last. -/
  | accepted (asked : Option Key)
  /-- In a slot with a key. -/
  | served (asked : Option Key) (key : Key)
  /-- The slot is given back. -/
  | left
  deriving DecidableEq

namespace Life

/-- What may happen to a descriptor next. -/
def next : Life → TableEvent → Option Life
  | closed, .accepted _ => some (accepted none)
  | accepted _, .asked _ key => some (accepted (some key))
  | accepted asked, .wrote _ => some (accepted asked)
  | accepted asked, .filled _ => some (served asked Key.empty)
  -- the server is full
  | accepted _, .closed _ => some closed
  | served _ key, .asked _ key' => some (served (some key') key)
  | served asked key, .wrote _ => some (served asked key)
  | served asked _, .named _ key => if asked = some key then some (served asked key) else none
  | served asked key, .published _ => some (served asked key)
  | served asked key, .told _ key' => if key' = key then some (served asked key) else none
  | served _ _, .cleared _ => some left
  | left, .closed _ => some closed
  | _, _ => none

/-- The key the connection has asked for last. -/
def asked : Life → Option Key
  | accepted k | served k _ => k
  | _ => none

/-- A handler may be at work. -/
def Running : Life → Prop
  | accepted _ | served _ _ => True
  | _ => False

end Life

/-- The life of a descriptor so far; `none` when something happened that may not. -/
def lifeOf (x : ℕ) (hist : List TableEvent) : Option Life :=
  hist.foldl (fun life e => if e.fd = x then life.bind (·.next e) else life) (some .closed)

/-- **No packet reaches the wrong connection**: every descriptor is accepted, served, written to and
closed in that order and once, the slots in use are those of the descriptors served, with the key
that was asked for, and each has one handler. -/
structure TableKept (p : LockServer) (hist : List TableEvent) : Prop where
  lives : ∀ x, ∃ life, lifeOf x hist = some life ∧
    (x ∈ p.pool.shared.openFds ↔ life ≠ .closed) ∧
    (x ≠ 0 → ∀ key, ⟨x, key⟩ ∈ p.pool.shared.clients ↔ ∃ asked, life = .served asked key)
  nodup : (clientSockets p.pool.shared.clients).Nodup
  owner : ∀ x ∈ clientSockets p.pool.shared.clients, x ∈ p.pool.shared.openFds ∧
    ∃ (t : ℕ) (th : Thread), p.pool.threads[t]? = some th ∧ th.handles = some x ∧
      ∀ (j : ℕ) (u : Thread), p.pool.threads[j]? = some u → u.fd = some x → j = t

/-! ### Every handler has its slot -/

/-- Every handler has a slot of the client table. -/
def Slotted (q : Server) : Prop :=
  ∀ u ∈ q.threads, ∀ x, u.handles = some x → x ∈ clientSockets q.shared.clients

theorem slotted_step (hC : Connected q) (hI : Slotted q) (hn : server.next q l = some q') :
    Slotted q' := by
  cases l with
  | env e =>
    obtain rfl := Pool.next_env.1 hn
    exact hI
  | run t c =>
    obtain ⟨th, a, r, hth, ha, hr, hthreads⟩ := server_run hn
    have hmem : th ∈ q.threads := List.mem_of_getElem? hth
    intro u hu x hx
    rw [hthreads] at hu
    obtain ⟨j, hj⟩ := List.getElem?_of_mem hu
    have hold : ∀ {j : ℕ} {u : Thread}, q.threads[j]? = some u → u.handles = some x →
        x ∈ clientSockets q.shared.clients := fun hj hx => hI _ (List.mem_of_getElem? hj) x hx
    cases conn_step ha hr with
    | quiet hclients _ _ hhandles _ _ _ _ hnew =>
      rw [hclients]
      rcases Pool.getElem?_step hj with ⟨-, hj⟩ | ⟨-, rfl⟩ | hn
      · exact hold hj hx
      · exact hold hth (hhandles x hx)
      · have hfd := fd_of_handles hx
        rw [hnew u hn] at hfd
        cases hfd
    | accept sock hth₁ hth' _ _ _ hclients hnew | reject sock hth₁ hth' hclients _ hnew =>
      rw [hclients]
      rcases Pool.getElem?_step hj with ⟨-, hj⟩ | ⟨-, rfl⟩ | hn
      · exact hold hj hx
      · rw [hth'] at hx
        cases hx
      · rw [hnew] at hn
        cases hn
    | add sock hth₁ hth' hnew hclients =>
      subst hth₁
      have hmem' := (clientSockets_add hclients (hC.openFds _ hmem sock rfl).1).mem_iff (a := x)
      rw [hmem']
      rcases Pool.getElem?_step hj with ⟨-, hj⟩ | ⟨-, rfl⟩ | hn
      · exact List.mem_cons_of_mem _ (hold hj hx)
      · rw [hth'] at hx
        cases hx
      · rw [hnew] at hn
        obtain rfl := List.mem_singleton.1 hn
        cases hx
        exact List.mem_cons_self
    | check sock key hth₁ hth' _ hclients _ hnew =>
      rw [hclients]
      rcases Pool.getElem?_step hj with ⟨-, hj⟩ | ⟨-, rfl⟩ | hn
      · exact hold hj hx
      · rw [hth'] at hx
        exact hold hth (hth₁ ▸ hx)
      · rw [hnew] at hn
        cases hn
    | register sock key rec hth₁ hth' hclients _ hnew =>
      rw [hclients, clientSockets_register]
      rcases Pool.getElem?_step hj with ⟨-, hj⟩ | ⟨-, rfl⟩ | hn
      · exact hold hj hx
      · rw [hth'] at hx
        exact hold hth (hth₁ ▸ hx)
      · rw [hnew] at hn
        cases hn
    | remove sock hth₁ hth' hclients _ hnew =>
      subst hth₁
      rw [hclients, clientSockets_remove _ (hC.openFds _ hmem sock rfl).1]
      rcases Pool.getElem?_step hj with ⟨hjt, hj⟩ | ⟨-, rfl⟩ | hn
      · refine (List.mem_erase_of_ne ?_).2 (hold hj hx)
        rintro rfl
        exact hjt (hC.fds j t u _ x hj hth (fd_of_handles hx) rfl)
      · rw [hth'] at hx
        cases hx
      · rw [hnew] at hn
        cases hn
    | close sock _ hth' _ hclients hnew =>
      rw [hclients]
      rcases Pool.getElem?_step hj with ⟨-, hj⟩ | ⟨-, rfl⟩ | hn
      · exact hold hj hx
      · have hfd := fd_of_handles hx
        rw [hth'] at hfd
        cases hfd
      · rw [hnew] at hn
        cases hn

/-! ### The step of a thread in the life of descriptors -/

/-- The key the connection has asked for, until it is in the slot. -/
def Login.requested : Login → Option Key
  | .duplicate key | .lookup key | .append key _ | .register key _ => some key
  | _ => none

/-- The life a thread takes its descriptor to have. -/
def Thread.Agrees (life : Life) : Thread → Prop
  | .main _ => ∃ asked, life = .accepted asked
  | .login _ pc => life.Running ∧ ∀ key, pc.requested = some key → life.asked = some key
  | .session _ _ _ | .disconnect _ .remove => life.Running
  | .disconnect _ .close => life = .left
  | _ => True

/-- What the step of a thread is in the life of descriptors. -/
inductive LifeStep (s : Shared) (c : Choice) (th : Thread) (o : Op) (s' : Shared) (th' : Thread)
    (new : List Thread) : Prop
  | quiet (hclients : s'.clients = s.clients) (hfds : s'.openFds = s.openFds)
      (hfd : ∀ x, th'.fd = some x → th.fd = some x)
      (hagrees : ∀ x life, th'.fd = some x → th.Agrees life → th'.Agrees life)
      (hnew : ∀ u ∈ new, u.fd = none)
      (hev : o.lifeEvents c = [] ∨ ∃ x, th.handles = some x ∧ o.lifeEvents c = [.wrote x] ∧
        (∃ pkt, o = .packetSend x pkt))
      (hno : o.store ≠ some .clients ∨ ∃ sock, o = .clientAdd sock ∧ th = .main (.add sock))
  | accept (x : ℕ) (hop : o = .accept) (hx : c.fd = x) (hth : th.fd = none)
      (hth' : th' = .main (.add x)) (h0 : x ≠ 0) (hfresh : x ∉ s.openFds)
      (hs : s' = { s with openFds := x :: s.openFds }) (hnew : new = [])
  | ask (x : ℕ) (key : Key) (hop : o = .packetRecv x) (hc : c.request = some (.login key))
      (hth : th.handles = some x) (hth' : th'.handles = some x)
      (hagrees : ∀ life : Life, life.Running → life.asked = some key →
        th'.Agrees life) (hs : s' = s)
      (hnew : new = [])
  | add (x : ℕ) (hop : o = .clientAdd x) (hth : th = .main (.add x)) (hth' : th' = .main .accept)
      (hcs : c.ok = true ∧ clientAdd s.clients x = some s'.clients)
  | register (x : ℕ) (key : Key) (rec : UserRecord) (hop : o = .clientRegister x key)
      (hth : th = .login x (.register key rec)) (hth' : th' = .login x (.mkdir key rec))
      (hs : s' = { s with clients := clientRegister s.clients x key }) (hnew : new = [])
  | remove (x : ℕ) (hop : o = .clientRemove x) (hth : th = .disconnect x .remove)
      (hth' : th' = .disconnect x .close)
      (hs : s' = { s with clients := clientRemove s.clients x }) (hnew : new = [])
  | close (x : ℕ) (hop : o = .close x) (hth : th.fd = some x ∧ th.handles = none)
      (hth' : th'.fd = none) (hs : s' = { s with openFds := s.openFds.erase x }) (hnew : new = [])

theorem lifeEvents_cases (o : Op) (c : Choice) : o.lifeEvents c = [] ∨
    o.store = some .openFds ∨
    (∃ x key, o = .packetRecv x ∧ c.request = some (.login key) ∧
      o.lifeEvents c = [.asked x key]) ∨
    ∃ x pkt, o = .packetSend x pkt ∧ o.lifeEvents c = [.wrote x] := by
  cases o with
  | accept | close sock => exact .inr (.inl rfl)
  | packetRecv sock =>
    rcases hreq : c.request with _ | req
    · exact .inl (by simp only [Op.lifeEvents, hreq])
    · cases req with
      | login key =>
        exact .inr (.inr (.inl ⟨sock, key, rfl, rfl, by simp only [Op.lifeEvents, hreq]⟩))
      | _ => exact .inl (by simp only [Op.lifeEvents, hreq])
  | packetSend sock pkt => exact .inr (.inr (.inr ⟨sock, pkt, rfl, rfl⟩))
  | _ => exact .inl rfl

/-- A thread that answers for no descriptor. -/
theorem life_outside {r : o.Ret} (hr : o.exec s c = some (s', r))
    (hw : o.store ≠ some .clients ∧ o.store ≠ some .openFds) (hsock : o.sock = none)
    (hth' : th'.fd = none) : LifeStep s c th o s' th' (o.spawned r) := by
  refine .quiet ((exec_frame hr).clients hw.1) ((exec_frame hr).openFds hw.2) ?_ ?_
    (spawned_fd hw.1) (.inl ?_) (.inl hw.1)
  · intro x hx
    rw [hth'] at hx
    cases hx
  · intro x life hx
    rw [hth'] at hx
    cases hx
  · rcases lifeEvents_cases o c with h | h | ⟨x, key, rfl, -⟩ | ⟨x, pkt, rfl, -⟩
    · exact h
    · exact absurd h hw.2
    · cases hsock
    · cases hsock

theorem login_requested {pc pc' : Login} (hs : (clientLogin sock pc).Steps s c s' (.cont pc')) :
    (∃ key, pc = .recv ∧ c.request = some (.login key) ∧ pc' = .duplicate key) ∨
      ∀ k, pc'.requested = some k → pc.requested = some k := by
  obtain ⟨r, hr, hn⟩ := hs
  cases pc with
  | recv =>
    cases hr
    simp only [clientLogin] at hn
    split at hn <;> cases hn
    · rename_i key hreq
      exact .inl ⟨key, rfl, hreq, rfl⟩
    · exact .inr (by rintro _ ⟨⟩)
  | duplicate key =>
    simp only [clientLogin] at hn
    split_ifs at hn <;> cases hn
    · exact .inr (by rintro _ ⟨⟩)
    · exact .inr fun _ hk => hk
  | lookup key =>
    simp only [clientLogin] at hn
    split at hn
    · cases hn
      exact .inr fun _ hk => hk
    · split_ifs at hn <;> cases hn
      · exact .inr (by rintro _ ⟨⟩)
      · exact .inr fun _ hk => hk
  | append key rec =>
    cases hn
    exact .inr fun _ hk => hk
  | marketSnapshot key | npcSnapshot key =>
    cases r <;> cases hn <;> exact .inr (by rintro _ ⟨⟩)
  | marketSend key slot todo | npcSend key slot todo =>
    cases todo <;> cases hn <;> exact .inr (by rintro _ ⟨⟩)
  | frozenMask key =>
    simp only [clientLogin] at hn
    split_ifs at hn
    cases hn
    exact .inr (by rintro _ ⟨⟩)
  | frozenSend key mask | refuse code reason => cases hn
  | _ =>
    cases hn
    exact .inr (by rintro _ ⟨⟩)

/-- The events of a handler that neither accepts nor closes. -/
theorem handler_events (ha : th.action = some a) (hstore : a.op.store ≠ some .openFds)
    (hh : ∀ x, th.fd = some x → th.handles = some x)
    (hno : ∀ x key, a.op = .packetRecv x → c.request ≠ some (.login key)) :
    a.op.lifeEvents c = [] ∨ ∃ x, th.handles = some x ∧ a.op.lifeEvents c = [.wrote x] ∧
      ∃ pkt, a.op = .packetSend x pkt := by
  rcases lifeEvents_cases a.op c with h | h | ⟨x, key, hop, hreq, -⟩ | ⟨x, pkt, hop, hev⟩
  · exact .inl h
  · exact absurd h hstore
  · exact absurd hreq (hno x key hop)
  · exact .inr ⟨x, hh x (op_sock ha (by rw [hop]; rfl)), hev, pkt, hop⟩

theorem login_life {pc : Login} (ha : (Thread.login sock pc).action = some a) {r : a.op.Ret}
    (hr : a.op.exec s c = some (s', r)) :
    LifeStep s c (.login sock pc) a.op s' (a.next r) (a.op.spawned r) := by
  have hsteps : a.Steps s c s' (a.next r) := ⟨r, hr, rfl⟩
  have hw := clientLogin_within sock pc
  have hop : a.op = (clientLogin sock pc).op := by cases ha; rfl
  have hspawn : a.op.spawned r = [] := by cases ha; cases pc <;> rfl
  have hfds : s'.openFds = s.openFds :=
    hsteps.frame.openFds (by rw [hop]; exact hw.store_ne (by simp))
  -- the points that are left when the key is asked for and when it is registered
  have hquiet : (∀ key, pc = .recv → c.request ≠ some (.login key)) →
      (∀ key rec, pc ≠ .register key rec) →
      LifeStep s c (.login sock pc) a.op s' (a.next r) (a.op.spawned r) := by
    intro hrecv hreg
    have hstore : a.op.store ≠ some .clients := by
      rw [hop]
      cases pc <;> first | exact absurd rfl (hreg _ _) | simp [clientLogin]
    have hev := handler_events (c := c) ha (by rw [hop]; exact hw.store_ne (by simp))
      (fun x hx => hx) (fun x key hx => by
        rw [hop] at hx
        cases pc <;> first | exact hrecv key rfl | cases hx)
    rw [hspawn]
    cases ha
    obtain ⟨n, hn, he⟩ := Action.steps_map.1 hsteps
    rw [he]
    rcases n with pc' | (_ | key) | _
    · refine .quiet (hsteps.frame.clients hstore) hfds (fun _ h => h) ?_ (by simp) hev (.inl hstore)
      rintro x life - ⟨hrun, hasked⟩
      rcases login_requested hn with ⟨key, hpc, hreq, -⟩ | hsame
      · exact absurd hreq (hrecv key hpc)
      · exact ⟨hrun, fun k hk => hasked k (hsame k hk)⟩
    · exact .quiet (hsteps.frame.clients hstore) hfds (fun _ h => h)
        (fun _ _ _ h => h.1) (by simp) hev
        (.inl hstore)
    · exact .quiet (hsteps.frame.clients hstore) hfds (fun _ h => h)
        (fun _ _ _ h => h.1) (by simp) hev
        (.inl hstore)
    · exact .quiet (hsteps.frame.clients hstore) hfds (fun _ h => h)
        (fun _ _ _ h => h.1) (by simp) hev
        (.inl hstore)
  cases pc with
  | recv =>
    by_cases hreq : ∃ key, c.request = some (.login key)
    · obtain ⟨key, hreq⟩ := hreq
      rw [hspawn]
      cases ha
      cases hr
      refine .ask sock key rfl hreq rfl ?_ ?_ rfl rfl
      · simp only [Action.map, clientLogin, hreq]
        rfl
      · intro life hrun hasked
        simp only [Action.map, clientLogin, hreq]
        refine ⟨hrun, fun k hk => ?_⟩
        cases hk
        exact hasked
    · exact hquiet (fun key _ hk => hreq ⟨key, hk⟩) (by rintro _ _ ⟨⟩)
  | register key rec =>
    rw [hspawn]
    cases ha
    cases hr
    exact .register sock key rec rfl rfl rfl rfl rfl
  | _ => exact hquiet (by rintro _ ⟨⟩) (by rintro _ _ ⟨⟩)

theorem session_life {pc : Command} (ha : (Thread.session sock key pc).action = some a)
    {r : a.op.Ret} (hr : a.op.exec s c = some (s', r)) :
    LifeStep s c (.session sock key pc) a.op s' (a.next r) (a.op.spawned r) := by
  have hsteps : a.Steps s c s' (a.next r) := ⟨r, hr, rfl⟩
  have hw := clientLoop_within sock key pc
  have hop : a.op = (clientLoop sock key pc).op := by cases ha; rfl
  have hstore : a.op.store ≠ some .clients := by rw [hop]; exact hw.store_ne (by simp)
  have hfds : a.op.store ≠ some .openFds := by rw [hop]; exact hw.store_ne (by simp)
  have hnext : (∃ pc', a.next r = .session sock key pc') ∨ a.next r = .disconnect sock .remove := by
    cases ha
    obtain ⟨n, -, he⟩ := Action.steps_map.1 hsteps
    rw [he]
    cases n with
    | cont pc' => exact .inl ⟨pc', rfl⟩
    | _ => exact .inr rfl
  have hagrees : ∀ life : Life, life.Running → (a.next r).Agrees life := by
    rcases hnext with ⟨pc', he⟩ | he <;> rw [he] <;> exact fun _ h => h
  have hhandles : (a.next r).handles = some sock := by
    rcases hnext with ⟨pc', he⟩ | he <;> rw [he] <;> rfl
  by_cases hreq : ∃ x k, a.op = .packetRecv x ∧ c.request = some (.login k)
  · obtain ⟨x, k, hrecv, hreq⟩ := hreq
    obtain rfl : sock = x := Option.some.inj (op_sock ha (by rw [hrecv]; rfl))
    have hs : s' = s := by
      have hf := exec_frame hr
      rw [hrecv] at hf
      exact hf
    have hspawn : ∀ (o : Op) (r : o.Ret), o = .packetRecv sock → o.spawned r = [] := by
      rintro _ r rfl
      rfl
    exact .ask sock k hrecv hreq rfl hhandles (fun life hrun _ => hagrees life hrun) hs
      (hspawn _ r hrecv)
  · refine .quiet ((exec_frame hr).clients hstore) ((exec_frame hr).openFds hfds) ?_
      (fun x life _ hrun => hagrees life hrun) (spawned_fd hstore) ?_ (.inl hstore)
    · intro x hx
      rw [fd_of_handles hhandles] at hx
      exact hx
    · exact handler_events ha hfds (fun x hx => hx) fun x k hx hk => hreq ⟨x, k, hx, hk⟩

theorem main_life {pc : Main} (ha : (Thread.main pc).action = some a) {r : a.op.Ret}
    (hr : a.op.exec s c = some (s', r)) :
    LifeStep s c (.main pc) a.op s' (a.next r) (a.op.spawned r) := by
  cases pc with
  | seed sd =>
    cases ha
    have hw := seedMarketAndNpc_within sd
    refine life_outside hr ⟨hw.store_ne (by simp), hw.store_ne (by simp)⟩ ?_ ?_
    · exact hw.sock_eq_none
    · obtain ⟨n, hn, he⟩ := Action.steps_map.1 (⟨r, hr, rfl⟩ : Action.Steps _ s c s' _)
      obtain ⟨m, -, rfl⟩ := Action.steps_map.1 hn
      rw [he]
      cases m <;> rfl
  | marketInit | npcInit =>
    cases ha
    exact life_outside hr ⟨(by rintro ⟨⟩), (by rintro ⟨⟩)⟩ rfl rfl
  | startEvents =>
    cases ha
    exact life_outside hr ⟨(by rintro ⟨⟩), (by rintro ⟨⟩)⟩ rfl (by cases r <;> rfl)
  | accept =>
    cases ha
    simp only [Action.map, mainThread, Op.exec] at hr
    split_ifs at hr with hfd
    cases hr
    rw [not_or] at hfd
    exact .accept c.fd rfl rfl rfl rfl hfd.1 hfd.2 rfl rfl
  | add sock =>
    cases ha
    simp only [Action.map, mainThread, Op.exec] at hr
    split at hr <;> cases hr
    · refine .quiet rfl rfl (fun _ h => h) (fun _ _ _ h => h) ?_ (.inl rfl)
        (.inr ⟨sock, rfl, rfl⟩)
      intro u hu
      cases hu
    · rename_i cs hcs
      split_ifs at hcs with hok
      exact .add sock rfl rfl rfl ⟨hok, hcs⟩
  | reject sock =>
    cases ha
    cases hr
    exact .close sock rfl ⟨rfl, rfl⟩ rfl rfl rfl

/-- **The step of a thread in the life of descriptors.** -/
theorem life_step (ha : th.action = some a) {r : a.op.Ret} (hr : a.op.exec s c = some (s', r)) :
    LifeStep s c th a.op s' (a.next r) (a.op.spawned r) := by
  have hout : th.fd = none → (a.next r).fd = none → a.op.store ≠ some .clients →
      a.op.store ≠ some .openFds → LifeStep s c th a.op s' (a.next r) (a.op.spawned r) := by
    intro hfd hth' hc hf
    refine life_outside hr ⟨hc, hf⟩ ?_ hth'
    rcases hs : a.op.sock with _ | x
    · rfl
    · rw [op_sock ha hs] at hfd
      cases hfd
  have hsteps : a.Steps s c s' (a.next r) := ⟨r, hr, rfl⟩
  cases th with
  | main pc => exact main_life ha hr
  | login sock pc => exact login_life ha hr
  | session sock key pc => exact session_life ha hr
  | disconnect sock pc =>
    cases ha
    cases pc with
    | remove =>
      cases hr
      exact .remove sock rfl rfl rfl rfl rfl
    | close =>
      cases hr
      exact .close sock rfl ⟨rfl, rfl⟩ rfl rfl rfl
  | event v pc =>
    cases ha
    have hw := eventThreadFunc_within v pc
    obtain ⟨n, -, he⟩ := Action.steps_map.1 hsteps
    exact hout rfl (by rw [he]; rfl) (hw.store_ne (by simp)) (hw.store_ne (by simp))
  | npcSequence pc =>
    cases ha
    have hw := eventDoNpcSequence_within pc
    obtain ⟨n, -, he⟩ := Action.steps_map.1 hsteps
    exact hout rfl (by rw [he]; cases n <;> rfl) (hw.store_ne (by simp)) (hw.store_ne (by simp))
  | leakRecovery mask dur pc =>
    cases ha
    have hw := leakRecoveryThread_within mask dur pc
    obtain ⟨n, -, he⟩ := Action.steps_map.1 hsteps
    exact hout rfl (by rw [he]; cases n <;> rfl) (hw.store_ne (by simp)) (hw.store_ne (by simp))
  | raidTimeout serial pc =>
    cases ha
    have hw := periodicRaidTimeoutThread_within pc
    obtain ⟨n, -, he⟩ := Action.steps_map.1 hsteps
    exact hout rfl (by rw [he]; cases n <;> rfl) (hw.store_ne (by simp)) (hw.store_ne (by simp))
  | roundEndTimer pc =>
    cases ha
    have hw := roundEndTimerThread_within pc
    obtain ⟨n, -, he⟩ := Action.steps_map.1 hsteps
    exact hout rfl (by rw [he]; cases n <;> rfl) (hw.store_ne (by simp)) (hw.store_ne (by simp))
  | finished => cases ha

end UnderFlow
