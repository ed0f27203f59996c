import UnderFlow.Server.Sessions
import Mathlib.Data.List.Induction

/-!
# Connections and what is written to them

* `ConnEvent`, `streamServer` : the server with a record of accepts, login requests and writes.
* `sent` : the packets written to a connection since it was accepted.
* `Connected` : who answers for the descriptors and the slots, in every run (`connected_step`).
* `writes_step` : a packet is written by the handler of its connection, or it is published.
-/

namespace UnderFlow

variable {s s' : Shared} {c : Choice} {th th' : Thread} {a : Action Thread} {p p' : Server}
  {t x : ℕ} {sock : ℕ} {key : Key} {hist ev : List ConnEvent} {pkt : Packet}

/-! ### The record -/

/-- What happens on a connection. -/
inductive ConnEvent where
  | accepted (fd : ℕ)
  /-- The server has read a login request. -/
  | asked (fd : ℕ)
  | wrote (fd : ℕ) (pkt : Packet)
  deriving DecidableEq

namespace ConnEvent

/-- The descriptor of an event. -/
def fd : ConnEvent → ℕ
  | accepted fd | asked fd | wrote fd _ => fd

/-- The packet of an event. -/
def packet : ConnEvent → Option Packet
  | wrote _ pkt => some pkt
  | _ => none

/-- The events of the connection of a descriptor; another connection begins with its accept. -/
def note (x : ℕ) (conn : List ConnEvent) (e : ConnEvent) : List ConnEvent :=
  if e = accepted x then [] else if e.fd = x then conn ++ [e] else conn

end ConnEvent

/-- What a step does to the connections, as a record. -/
def Op.connEvents (s : Shared) (c : Choice) : Op → List ConnEvent
  | .accept => [.accepted c.fd]
  | .packetRecv sock =>
    match c.request with
    | some (.login _) => [.asked sock]
    | _ => []
  | o => (o.deliveries s).map fun w => .wrote w.1 w.2

/-- What a step adds to the history. -/
def connEventsAt (p : Server) (l : Label) : List ConnEvent :=
  (opAt p l).elim [] fun o => o.connEvents p.shared (choiceOf l)

/-- The server with a record of its connections. -/
def streamServer : System (Server × List ConnEvent) Label := server.withHistory connEventsAt

/-- The events of a descriptor since it was last accepted. -/
def connection (x : ℕ) (hist : List ConnEvent) : List ConnEvent := hist.foldl (ConnEvent.note x) []

/-- The packets written to a connection, since it was accepted. -/
def sent (x : ℕ) (hist : List ConnEvent) : List Packet :=
  (connection x hist).filterMap ConnEvent.packet

/-- The connection has sent a login request. -/
def Asked (x : ℕ) (hist : List ConnEvent) : Prop := .asked x ∈ connection x hist

/-- The connection was answered `PKT_RES_LOGIN_OK`. -/
def Answered (x : ℕ) (hist : List ConnEvent) : Prop :=
  ∃ id money goal, .loginOk id money goal ∈ sent x hist

theorem connection_concat (hist : List ConnEvent) (e : ConnEvent) :
    connection x (hist ++ [e]) = ConnEvent.note x (connection x hist) e := by
  simp [connection, List.foldl_append]

theorem connection_append (hev : .accepted x ∉ ev) :
    connection x (hist ++ ev) = connection x hist ++ ev.filter fun e => e.fd = x := by
  induction ev generalizing hist with
  | nil => simp
  | cons e ev ih =>
    rw [List.mem_cons, not_or] at hev
    rw [List.append_cons, ih hev.2, connection_concat, ConnEvent.note, if_neg (Ne.symm hev.1)]
    by_cases hfd : e.fd = x <;> simp [hfd]

theorem sent_append (hev : .accepted x ∉ ev) : sent x (hist ++ ev) =
    sent x hist ++ (ev.filter fun e => e.fd = x).filterMap ConnEvent.packet := by
  rw [sent, connection_append hev, List.filterMap_append, sent]

theorem sent_accepted (hist : List ConnEvent) : sent x (hist ++ [.accepted x]) = [] := by
  simp [sent, connection_concat, ConnEvent.note]

theorem Asked.append (h : Asked x hist) (hev : .accepted x ∉ ev) : Asked x (hist ++ ev) := by
  rw [Asked, connection_append hev]
  exact List.mem_append_left _ h

theorem Answered.append (h : Answered x hist) (hev : .accepted x ∉ ev) :
    Answered x (hist ++ ev) := by
  obtain ⟨id, money, goal, hmem⟩ := h
  refine ⟨id, money, goal, ?_⟩
  rw [sent_append hev]
  exact List.mem_append_left _ hmem

/-- Events of other connections add nothing. -/
theorem sent_append_of_ne (hev : ∀ e ∈ ev, e.fd ≠ x) : sent x (hist ++ ev) = sent x hist := by
  have hacc : .accepted x ∉ ev := fun h => hev _ h rfl
  have hnil : ev.filter (fun e => e.fd = x) = [] := by
    rw [List.filter_eq_nil_iff]
    exact fun e he => by simpa using hev e he
  rw [sent_append hacc, hnil, List.filterMap_nil, List.append_nil]

/-- What stands in the record of a connection stands in the record. -/
theorem mem_connection {e : ConnEvent} (h : e ∈ connection x hist) : e ∈ hist ∧ e.fd = x := by
  induction hist using List.reverseRecOn with
  | nil => cases h
  | append_singleton hist f ih =>
    rw [connection_concat, ConnEvent.note] at h
    split_ifs at h with hacc hfd
    · cases h
    · rcases List.mem_append.1 h with h | h
      · exact ⟨List.mem_append_left _ (ih h).1, (ih h).2⟩
      · obtain rfl := List.mem_singleton.1 h
        exact ⟨by simp, hfd⟩
    · exact ⟨List.mem_append_left _ (ih h).1, (ih h).2⟩

theorem wrote_of_sent (h : pkt ∈ sent x hist) : .wrote x pkt ∈ hist := by
  obtain ⟨e, he, hpkt⟩ := List.mem_filterMap.1 h
  obtain ⟨hmem, hfd⟩ := mem_connection he
  cases e with
  | wrote y q =>
    cases hpkt
    cases hfd
    exact hmem
  | _ => cases hpkt

/-! ### Who writes what -/

/-- The packets an operation publishes: they are written to connections found in the table. -/
def Op.listeners (s : Shared) : Op → List ℕ
  | .broadcast _ => clientSockets s.clients
  | .unicastToKey key _ => (clientSocketOf s.clients key).toList
  | _ => []

/-- **A descriptor is used** by the thread that answers for it. -/
theorem op_sock (ha : th.action = some a) (h : a.op.sock = some x) : th.fd = some x := by
  have hno : ∀ {β : Type} {b : Action β} {l : List Store}, b.Within l none →
      b.op.sock = some x → th.fd = some x := fun hb hx => nomatch hb.2 x hx
  cases th with
  | main pc =>
    cases ha
    cases pc with
    | seed q => exact hno (seedMarketAndNpc_within q) h
    | add sock | reject sock => exact h
    | _ => cases h
  | login sock pc =>
    cases ha
    exact (clientLogin_within sock pc).2 x h
  | session sock key pc =>
    cases ha
    exact (clientLoop_within sock key pc).2 x h
  | disconnect sock pc =>
    cases ha
    cases pc <;> exact h
  | event v pc =>
    cases ha
    exact hno (eventThreadFunc_within v pc) h
  | npcSequence pc =>
    cases ha
    exact hno (eventDoNpcSequence_within pc) h
  | leakRecovery mask dur pc =>
    cases ha
    exact hno (leakRecoveryThread_within mask dur pc) h
  | raidTimeout serial pc =>
    cases ha
    exact hno (periodicRaidTimeoutThread_within pc) h
  | roundEndTimer pc =>
    cases ha
    exact hno (roundEndTimerThread_within pc) h
  | finished => cases ha

/-- The events of an operation: an accept, a login request, or writes. -/
theorem connEvents_cases {o : Op} {e : ConnEvent} (h : e ∈ o.connEvents s c) :
    (o = .accept ∧ e = .accepted c.fd) ∨
    (∃ x key, o = .packetRecv x ∧ c.request = some (.login key) ∧ e = .asked x) ∨
    (∃ x pkt, o = .packetSend x pkt ∧ e = .wrote x pkt) ∨
    (∃ x pkt, x ∈ o.listeners s ∧ e = .wrote x pkt) := by
  cases o with
  | accept => exact .inl ⟨rfl, List.mem_singleton.1 h⟩
  | packetRecv sock =>
    simp only [Op.connEvents] at h
    split at h
    · rename_i key hreq
      exact .inr (.inl ⟨sock, key, rfl, hreq, List.mem_singleton.1 h⟩)
    · cases h
  | packetSend sock pkt => exact .inr (.inr (.inl ⟨sock, pkt, rfl, List.mem_singleton.1 h⟩))
  | broadcast pkt =>
    obtain ⟨w, hw, rfl⟩ := List.mem_map.1 h
    obtain ⟨x, hx, rfl⟩ := List.mem_map.1 hw
    exact .inr (.inr (.inr ⟨x, pkt, hx, rfl⟩))
  | unicastToKey key pkt =>
    obtain ⟨w, hw, rfl⟩ := List.mem_map.1 h
    obtain ⟨x, hx, rfl⟩ := Option.map_eq_some_iff.1 (Option.mem_toList.1 hw)
    exact .inr (.inr (.inr ⟨x, pkt, Option.mem_toList.2 hx, rfl⟩))
  | _ => cases h

/-! ### The client table -/

variable {cs cs' : List Client} {cl : Client}

theorem clientSockets_add (h : clientAdd cs sock = some cs') (h0 : sock ≠ 0) :
    (clientSockets cs').Perm (sock :: clientSockets cs) := by
  obtain ⟨⟨cl, _⟩, hu, rfl⟩ := Option.map_eq_some_iff.1 h
  obtain ⟨l₁, l₂, rfl, rfl, hcl, -⟩ := updateFirst_eq_some.1 hu
  have hfree : cl.sock = 0 := by simpa using hcl
  simp [clientSockets, hfree, h0]

theorem clientSockets_register (cs : List Client) (sock : ℕ) (key : Key) :
    clientSockets (clientRegister cs sock key) = clientSockets cs := by
  rw [clientRegister]
  rcases hu : updateFirst (fun c => c.sock == sock) (fun c => { c with key := key }) cs with
    _ | ⟨cl, cs'⟩ <;> rw [hu]
  · rfl
  · obtain ⟨l₁, l₂, rfl, rfl, -, -⟩ := updateFirst_eq_some.1 hu
    by_cases h0 : cl.sock = 0 <;> simp [clientSockets, h0]

theorem clientSockets_remove (cs : List Client) (h0 : sock ≠ 0) :
    clientSockets (clientRemove cs sock) = (clientSockets cs).erase sock := by
  rw [clientRemove]
  rcases hu : updateFirst (fun c => c.sock == sock) (fun _ => {}) cs with
    _ | ⟨cl, cs'⟩ <;> rw [hu]
  · symm
    refine List.erase_of_not_mem fun hmem => ?_
    obtain ⟨cl, hcl, rfl⟩ := List.mem_map.1 hmem
    simpa using updateFirst_eq_none.1 hu cl (List.mem_of_mem_filter hcl)
  · obtain ⟨l₁, l₂, rfl, rfl, hcl, hl₁⟩ := updateFirst_eq_some.1 hu
    have hsock : cl.sock = sock := by simpa using hcl
    have hnot : sock ∉ clientSockets l₁ := by
      intro hmem
      obtain ⟨d, hd, hds⟩ := List.mem_map.1 hmem
      simpa [hds] using hl₁ d (List.mem_of_mem_filter hd)
    have hleft : clientSockets (l₁ ++ cl :: l₂) = clientSockets l₁ ++ sock :: clientSockets l₂ := by
      simp [clientSockets, hsock, h0]
    have hright : clientSockets (l₁ ++ ({} : Client) :: l₂) =
        clientSockets l₁ ++ clientSockets l₂ := by
      simp [clientSockets]
    show clientSockets (l₁ ++ ({} : Client) :: l₂) = _
    rw [hleft, hright, List.erase_append_right _ hnot, List.erase_cons_head]

theorem mem_clientAdd (h : clientAdd cs sock = some cs') (hcl : cl ∈ cs') :
    cl ∈ cs ∨ (cl.sock = sock ∧ ∃ free ∈ cs, free.sock = 0 ∧ cl.key = free.key) := by
  obtain ⟨⟨free, _⟩, hu, rfl⟩ := Option.map_eq_some_iff.1 h
  obtain ⟨hmem, hfree⟩ := mem_of_updateFirst hu
  rcases mem_updateFirst hu hcl with rfl | hold
  · exact .inr ⟨rfl, free, hmem, by simpa using hfree, rfl⟩
  · exact .inl hold

theorem mem_clientRegister (hcl : cl ∈ clientRegister cs sock key) : cl ∈ cs ∨ cl.sock = sock := by
  rw [clientRegister] at hcl
  rcases hu : updateFirst (fun c => c.sock == sock) (fun c => { c with key := key }) cs with
    _ | ⟨old, cs'⟩ <;> rw [hu] at hcl
  · exact .inl hcl
  · rcases mem_updateFirst hu hcl with rfl | hold
    · exact .inr (by simpa using (mem_of_updateFirst hu).2)
    · exact .inl hold

theorem mem_clientRemove (hcl : cl ∈ clientRemove cs sock) : cl ∈ cs ∨ cl = {} := by
  rw [clientRemove] at hcl
  rcases hu : updateFirst (fun c => c.sock == sock) (fun _ => {}) cs with
    _ | ⟨old, cs'⟩ <;> rw [hu] at hcl
  · exact .inl hcl
  · exact (mem_updateFirst hu hcl).symm

/-! ### Descriptors and slots -/

/-- Every open descriptor has one thread at most, every slot in use has a handler, and free slots
have no key. -/
structure Connected (p : Server) : Prop where
  fds : Pool.InjOn Thread.fd p.threads
  openFds : ∀ u ∈ p.threads, ∀ x, u.fd = some x → x ≠ 0 ∧ x ∈ p.shared.openFds
  nodup : (clientSockets p.shared.clients).Nodup
  free : ∀ cl ∈ p.shared.clients, cl.sock = 0 → cl.key = Key.empty
  handled : ∀ x ∈ clientSockets p.shared.clients, ∃ u ∈ p.threads, u.handles = some x

/-- No slot belongs to a thread that handles none. -/
theorem Connected.not_slot (h : Connected p) (hth : p.threads[t]? = some th) (hfd : th.fd = some x)
    (hno : th.handles = none) : x ∉ clientSockets p.shared.clients := by
  intro hmem
  obtain ⟨u, hu, hx⟩ := h.handled x hmem
  obtain ⟨j, hj⟩ := List.getElem?_of_mem hu
  obtain rfl := h.fds j t u th x hj hth (fd_of_handles hx) hfd
  rw [hth] at hj
  cases hj
  rw [hno] at hx
  cases hx

/-- The descriptors stay open while a thread answers for them. -/
theorem openFds_step {new : List Thread} (hI : Connected p) (hth : p.threads[t]? = some th)
    (h : ConnStep p.shared th s' th' new) :
    ∀ u ∈ p.threads.set t th' ++ new, ∀ x, u.fd = some x → x ≠ 0 ∧ x ∈ s'.openFds := by
  intro u hu x hx
  have hmem : th ∈ p.threads := List.mem_of_getElem? hth
  obtain ⟨j, hj⟩ := List.getElem?_of_mem hu
  cases h with
  | quiet _ hfds hfd _ _ _ _ _ hnew =>
    rw [hfds]
    rcases Pool.getElem?_step hj with ⟨-, hold⟩ | ⟨-, rfl⟩ | hn
    · exact hI.openFds u (List.mem_of_getElem? hold) x hx
    · exact hI.openFds th hmem x (hfd x hx)
    · rw [hnew u hn] at hx
      cases hx
  | accept sock _ hth' h0 _ hfds _ hnew =>
    subst hth' hnew
    rw [hfds]
    rcases Pool.getElem?_step hj with ⟨-, hold⟩ | ⟨-, rfl⟩ | hn
    · have := hI.openFds u (List.mem_of_getElem? hold) x hx
      exact ⟨this.1, List.mem_cons_of_mem _ this.2⟩
    · cases hx
      exact ⟨h0, List.mem_cons_self⟩
    · cases hn
  | add sock hth₁ hth' hnew _ hfds =>
    subst hth₁ hth' hnew
    rw [hfds]
    rcases Pool.getElem?_step hj with ⟨-, hold⟩ | ⟨-, rfl⟩ | hn
    · exact hI.openFds u (List.mem_of_getElem? hold) x hx
    · cases hx
    · rw [List.mem_singleton.1 hn] at hx
      exact hI.openFds _ hmem x hx
  | reject sock hth₁ hth' _ hfds hnew | check sock key hth₁ hth' _ _ hfds hnew
  | register sock key rec hth₁ hth' _ hfds hnew | remove sock hth₁ hth' _ hfds hnew =>
    subst hth₁ hth' hnew
    rw [hfds]
    rcases Pool.getElem?_step hj with ⟨-, hold⟩ | ⟨-, rfl⟩ | hn
    · exact hI.openFds u (List.mem_of_getElem? hold) x hx
    · exact hI.openFds _ hmem x hx
    · cases hn
  | close sock hth₁ hth' hfds _ hnew =>
    subst hnew
    rw [hfds]
    rcases Pool.getElem?_step hj with ⟨hjt, hold⟩ | ⟨-, rfl⟩ | hn
    · have := hI.openFds u (List.mem_of_getElem? hold) x hx
      refine ⟨this.1, (List.mem_erase_of_ne ?_).2 this.2⟩
      rintro rfl
      exact hjt (hI.fds j t u th x hold hth hx hth₁.1)
    · rw [hth'] at hx
      cases hx
    · cases hn

/-- The slots in use after a step have handlers. -/
theorem handled_step {new : List Thread} (hI : Connected p) (hth : p.threads[t]? = some th)
    (h : ConnStep p.shared th s' th' new) :
    ∀ x ∈ clientSockets s'.clients, ∃ u ∈ p.threads.set t th' ++ new, u.handles = some x := by
  intro x hx
  have hmem : th ∈ p.threads := List.mem_of_getElem? hth
  have hself : th' ∈ p.threads.set t th' ++ new :=
    List.mem_of_getElem? (Pool.getElem?_step_self hth)
  -- the handler is the thread that ran, or is still there
  have hkeep : (th.handles = some x → ∃ u ∈ p.threads.set t th' ++ new, u.handles = some x) →
      x ∈ clientSockets p.shared.clients →
      ∃ u ∈ p.threads.set t th' ++ new, u.handles = some x := by
    intro hown hx
    obtain ⟨u, hu, hux⟩ := hI.handled x hx
    obtain ⟨j, hj⟩ := List.getElem?_of_mem hu
    by_cases hjt : j = t
    · subst hjt
      rw [hth] at hj
      cases hj
      exact hown hux
    · exact ⟨u, List.mem_of_getElem? (Pool.getElem?_step_of_ne hjt hj), hux⟩
  cases h with
  | quiet hclients _ _ hhandles hlost =>
    rw [hclients] at hx
    refine hkeep (fun hown => ?_) hx
    rcases hh : th'.handles with _ | y
    · rw [hlost hh] at hown
      cases hown
    · have hy := hhandles y hh
      rw [hown] at hy
      cases hy
      exact ⟨th', hself, hh⟩
  | accept sock hth₁ _ _ _ _ hclients | reject sock hth₁ _ hclients =>
    subst hth₁
    rw [hclients] at hx
    exact hkeep nofun hx
  | add sock hth₁ hth' hnew hclients =>
    subst hth₁ hnew
    rcases List.mem_cons.1
      ((clientSockets_add hclients (hI.openFds _ hmem sock rfl).1).mem_iff.1 hx)
      with rfl | hold
    · exact ⟨.login x .recv, List.mem_append_right _ List.mem_cons_self, rfl⟩
    · exact hkeep nofun hold
  | check sock key hth₁ hth' _ hclients =>
    subst hth₁ hth'
    rw [hclients] at hx
    exact hkeep (fun hown => ⟨_, hself, hown⟩) hx
  | register sock key rec hth₁ hth' hclients =>
    subst hth₁ hth'
    rw [hclients, clientSockets_register] at hx
    exact hkeep (fun hown => ⟨_, hself, hown⟩) hx
  | remove sock hth₁ hth' hclients =>
    subst hth₁
    have h0 := (hI.openFds _ hmem sock rfl).1
    rw [hclients, clientSockets_remove _ h0, hI.nodup.mem_erase_iff] at hx
    refine hkeep (fun hown => ?_) hx.2
    exact absurd (Option.some.inj hown).symm hx.1
  | close sock hth₁ _ _ hclients =>
    rw [hclients] at hx
    refine hkeep (fun hown => ?_) hx
    rw [hth₁.2] at hown
    cases hown

/-- The slots after a step. -/
theorem table_step {new : List Thread} (hI : Connected p) (hth : p.threads[t]? = some th)
    (h : ConnStep p.shared th s' th' new) : (clientSockets s'.clients).Nodup ∧
      ∀ cl ∈ s'.clients, cl.sock = 0 → cl.key = Key.empty := by
  have hmem : th ∈ p.threads := List.mem_of_getElem? hth
  cases h with
  | quiet hclients | accept sock _ _ _ _ _ hclients | reject sock _ _ hclients
  | check sock key _ _ _ hclients | close sock _ _ _ hclients =>
    rw [hclients]
    exact ⟨hI.nodup, hI.free⟩
  | add sock hth₁ _ _ hclients =>
    subst hth₁
    have h0 := (hI.openFds _ hmem sock rfl).1
    refine ⟨(clientSockets_add hclients h0).nodup_iff.2 ?_, fun cl hcl hs => ?_⟩
    · exact List.nodup_cons.2 ⟨hI.not_slot hth rfl rfl, hI.nodup⟩
    · rcases mem_clientAdd hclients hcl with hold | ⟨hsock, -⟩
      · exact hI.free cl hold hs
      · exact absurd (hsock.symm.trans hs) h0
  | register sock key rec hth₁ _ hclients =>
    subst hth₁
    have h0 := (hI.openFds _ hmem sock rfl).1
    rw [hclients, clientSockets_register]
    refine ⟨hI.nodup, fun cl hcl hs => ?_⟩
    rcases mem_clientRegister hcl with hold | hsock
    · exact hI.free cl hold hs
    · exact absurd (hsock.symm.trans hs) h0
  | remove sock hth₁ _ hclients =>
    subst hth₁
    have h0 := (hI.openFds _ hmem sock rfl).1
    rw [hclients, clientSockets_remove _ h0]
    refine ⟨hI.nodup.erase sock, fun cl hcl hs => ?_⟩
    rcases mem_clientRemove hcl with hold | rfl
    · exact hI.free cl hold hs
    · rfl

/-- **The connections of every run.** -/
theorem connected_step {l : Label} (hI : Connected p) (h : server.next p l = some p') :
    Connected p' := by
  cases l with
  | env e =>
    obtain rfl := Pool.next_env.1 h
    exact ⟨hI.fds, hI.openFds, hI.nodup, hI.free, hI.handled⟩
  | run t c =>
    obtain ⟨th, a, r, hth, ha, hr, hthreads⟩ := server_run h
    have hcs := conn_step ha hr
    obtain ⟨hnodup, hfree⟩ := table_step hI hth hcs
    refine ⟨?_, ?_, hnodup, hfree, ?_⟩ <;> rw [hthreads]
    · exact fds_step (fun u hu x hx => (hI.openFds u hu x hx).2) hI.fds hth hcs
    · exact openFds_step hI hth hcs
    · exact handled_step hI hth hcs

theorem connected_boot (cwd : Dir) (files : Files) (users : UserDb) (clock : ℕ) :
    Connected (boot cwd files users clock) where
  fds i j u v x hi _ hu := by
    obtain rfl := List.mem_singleton.1 (List.mem_of_getElem? hi)
    cases hu
  openFds u hu x hx := by
    obtain rfl := List.mem_singleton.1 hu
    cases hx
  nodup := by
    show (clientSockets (List.replicate maxClients {})).Nodup
    decide
  free cl hcl _ := by rw [List.eq_of_mem_replicate hcl]
  handled x hx := by
    have hnil : clientSockets (List.replicate maxClients {}) = [] := by decide
    have hx' : x ∈ clientSockets (List.replicate maxClients {}) := hx
    rw [hnil] at hx'
    cases hx'

end UnderFlow
