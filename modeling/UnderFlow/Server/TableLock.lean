import UnderFlow.Server.Streams

/-!
# The client table under its mutex

In `server` a critical section of `clients_mutex` is one step.  Here it takes several: a thread
takes the mutex, `broadcast_packet` and `unicast_to_key` write slot after slot, `main` starts the
handler of a new connection before it fills the slot, and meanwhile the threads that do not need the
mutex go on.

* `lockServer` : the server with the holder of `clients_mutex` in its state.
* `lock_step` : what one of its steps can do.
* `seen_step`, `seen_of_reach` : with a handler that was started counted as a slot that is filled,
  it does what `server` does; `lockServer_reach_iff`.
-/

namespace UnderFlow

/-- The operations done under `clients_mutex`. -/
def Op.locksClients : Op → Bool
  | .clientDuplicate _ _ | .clientAdd _ | .clientRegister _ _ | .clientRemove _ | .clientKeys
  | .raidLaunchAll | .broadcast _ | .unicastToKey _ _ => true
  | _ => false

/-- The senders: they write to connections found in the client table. -/
def Op.sends : Op → Bool
  | .broadcast _ | .unicastToKey _ _ => true
  | _ => false

/-- The thread inside a critical section of `clients_mutex`. -/
structure Holder where
  /-- Its position. -/
  thread : ℕ
  /-- The slots its loop has gone through. -/
  visited : ℕ := 0
  /-- `main` has started the handler of the new connection. -/
  started : Bool := false
  deriving DecidableEq

/-- The server with its client mutex. -/
structure LockServer where
  /-- The server. -/
  pool : Server
  /-- Who holds `clients_mutex`. -/
  holder : Option Holder := none

namespace LockServer

/-- The critical section of `t` is done as a whole, and left. -/
def unlock (p : LockServer) (t : ℕ) (c : Choice) : Option LockServer :=
  (server.next p.pool (.run t c)).map fun q => ⟨q, none⟩

/-- `main` starts the handler of a new connection. -/
def start (p : LockServer) (h : Holder) (sock : ℕ) : LockServer :=
  ⟨{ p.pool with threads := p.pool.threads ++ [.login sock .recv] },
    some { h with started := true }⟩

/-- `main` fills the slot, and leaves the critical section. -/
def fill (p : LockServer) (t sock : ℕ) : Option LockServer :=
  (clientAdd p.pool.shared.clients sock).map fun cs =>
    ⟨⟨{ p.pool.shared with clients := cs }, p.pool.threads.set t (.main .accept)⟩, none⟩

/-- A step of the holder in its critical section. -/
def inside (p : LockServer) (h : Holder) (c : Choice) : Op → Option LockServer
  | .broadcast _ =>
    if h.visited < p.pool.shared.clients.length then
      some { p with holder := some { h with visited := h.visited + 1 } }
    else p.unlock h.thread c
  | .unicastToKey key _ =>
    match p.pool.shared.clients[h.visited]? with
    | some cl =>
      -- the loop is left after the write
      let next := if cl.sock ≠ 0 ∧ cl.key = key then p.pool.shared.clients.length
        else h.visited + 1
      some { p with holder := some { h with visited := next } }
    | none => p.unlock h.thread c
  | .clientAdd sock =>
    if h.started then p.fill h.thread sock
    else if c.ok ∧ (clientAdd p.pool.shared.clients sock).isSome then some (p.start h sock)
    else p.unlock h.thread c
  | _ => p.unlock h.thread c

end LockServer

/-- **The server with `clients_mutex`**: an operation on the client table begins when the mutex is
free, and nobody else enters until it is done. -/
def lockServer : System LockServer Label where
  next p
    | .env e => (server.next p.pool (.env e)).map fun q => { p with pool := q }
    | .run t c =>
      match opAt p.pool (.run t c) with
      | none => none
      | some o =>
        if o.locksClients then
          match p.holder with
          | none => some { p with holder := some { thread := t } }
          | some h => if h.thread = t then p.inside h c o else none
        else (server.next p.pool (.run t c)).map fun q => { p with pool := q }

variable {s s' : Shared} {c : Choice} {th th' : Thread} {a : Action Thread} {p p' : LockServer}
  {q : Server} {o : Op} {l : Label} {t x sock : ℕ} {h : Holder} {cs : List Client}

/-! ### One step -/

/-- What a step can do. -/
inductive LockStep (p : LockServer) : Label → LockServer → Prop
  | env (e : ℕ) (q : Server) (hq : server.next p.pool (.env e) = some q) :
      LockStep p (.env e) ⟨q, p.holder⟩
  /-- A step that does not need the mutex. -/
  | outside (t : ℕ) (c : Choice) (o : Op) (q : Server) (ho : opAt p.pool (.run t c) = some o)
      (hfree : o.locksClients = false) (hq : server.next p.pool (.run t c) = some q) :
      LockStep p (.run t c) ⟨q, p.holder⟩
  | lock (t : ℕ) (c : Choice) (o : Op) (ho : opAt p.pool (.run t c) = some o)
      (hlocks : o.locksClients = true) (hnone : p.holder = none) :
      LockStep p (.run t c) ⟨p.pool, some { thread := t }⟩
  /-- The loop of a sender goes on. -/
  | visit (c : Choice) (o : Op) (h : Holder) (n : ℕ)
      (ho : opAt p.pool (.run h.thread c) = some o) (hsend : o.sends = true)
      (hh : p.holder = some h) :
      LockStep p (.run h.thread c) ⟨p.pool, some { h with visited := n }⟩
  | start (c : Choice) (sock : ℕ) (h : Holder) (cs : List Client)
      (ho : opAt p.pool (.run h.thread c) = some (.clientAdd sock)) (hh : p.holder = some h)
      (hs : h.started = false) (hok : c.ok = true)
      (hcs : clientAdd p.pool.shared.clients sock = some cs) :
      LockStep p (.run h.thread c) (p.start h sock)
  | fill (c : Choice) (sock : ℕ) (h : Holder) (cs : List Client)
      (ho : opAt p.pool (.run h.thread c) = some (.clientAdd sock)) (hh : p.holder = some h)
      (hs : h.started = true) (hcs : clientAdd p.pool.shared.clients sock = some cs) :
      LockStep p (.run h.thread c)
        ⟨⟨{ p.pool.shared with clients := cs }, p.pool.threads.set h.thread (.main .accept)⟩, none⟩
  | unlock (c : Choice) (o : Op) (h : Holder) (q : Server)
      (ho : opAt p.pool (.run h.thread c) = some o) (hlocks : o.locksClients = true)
      (hh : p.holder = some h)
      (hadd : ∀ sock, o = .clientAdd sock → h.started = false ∧
        (c.ok = true → clientAdd p.pool.shared.clients sock = none))
      (hdone : o.sends = true → p.pool.shared.clients[h.visited]? = none)
      (hq : server.next p.pool (.run h.thread c) = some q) : LockStep p (.run h.thread c) ⟨q, none⟩

/-- The step of the holder. -/
theorem inside_step (ho : opAt p.pool (.run h.thread c) = some o) (hlocks : o.locksClients = true)
    (hh : p.holder = some h) (hp : p.inside h c o = some p') : LockStep p (.run h.thread c) p' := by
  have hunlock : (∀ sock, o = .clientAdd sock → h.started = false ∧
      (c.ok = true → clientAdd p.pool.shared.clients sock = none)) →
      (o.sends = true → p.pool.shared.clients[h.visited]? = none) →
      p.unlock h.thread c = some p' → LockStep p (.run h.thread c) p' := by
    intro hadd hdone hu
    obtain ⟨q, hq, rfl⟩ := Option.map_eq_some_iff.1 hu
    exact .unlock c o h q ho hlocks hh hadd hdone hq
  cases o with
  | broadcast pkt =>
    simp only [LockServer.inside] at hp
    split_ifs at hp with hlt
    · cases hp
      exact .visit c _ h _ ho rfl hh
    · exact hunlock (by simp) (fun _ => List.getElem?_eq_none (not_lt.1 hlt)) hp
  | unicastToKey key pkt =>
    simp only [LockServer.inside] at hp
    split at hp
    · cases hp
      exact .visit c _ h _ ho rfl hh
    · rename_i hnone
      exact hunlock (by simp) (fun _ => hnone) hp
  | clientAdd sock =>
    simp only [LockServer.inside] at hp
    split_ifs at hp with hs hok
    · obtain ⟨cs, hcs, rfl⟩ := Option.map_eq_some_iff.1 hp
      exact .fill c sock h cs ho hh hs hcs
    · cases hp
      obtain ⟨cs, hcs⟩ := Option.isSome_iff_exists.1 hok.2
      exact .start c sock h cs ho hh (by simpa using hs) hok.1 hcs
    · refine hunlock (fun x hx => ?_) (by simp [Op.sends]) hp
      cases hx
      refine ⟨by simpa using hs, fun hc => ?_⟩
      simpa [hc] using hok
  | _ => exact hunlock (by simp) (by simp [Op.sends]) hp

/-- **What a step can do.** -/
theorem lock_step (hp : lockServer.next p l = some p') : LockStep p l p' := by
  cases l with
  | env e =>
    simp only [lockServer, Option.map_eq_some_iff] at hp
    obtain ⟨q, hq, rfl⟩ := hp
    exact .env e q hq
  | run t c =>
    simp only [lockServer] at hp
    split at hp
    · cases hp
    · rename_i o ho
      split_ifs at hp with hlocks
      · split at hp
        · rename_i hnone
          cases hp
          exact .lock t c o ho hlocks hnone
        · rename_i h hh
          split_ifs at hp with ht
          subst ht
          exact inside_step ho hlocks hh hp
      · obtain ⟨q, hq, rfl⟩ := Option.map_eq_some_iff.1 hp
        exact .outside t c o q ho (by simpa using hlocks) hq

/-! ### Critical sections are atomic -/

/-- An operation that does not lock the client table neither reads nor writes it. -/
theorem exec_clients (hfree : o.locksClients = false) (s : Shared) (c : Choice)
    (cs : List Client) : o.exec { s with clients := cs } c =
      (o.exec s c).map fun p => ({ p.1 with clients := cs }, p.2) := by
  cases o <;> first
    | rfl
    | (simp only [Op.exec]; split <;> first | rfl | (split <;> rfl))
    | simp [Op.locksClients] at hfree

/-- Only `main` adds to the client table. -/
theorem add_of_op (ha : th.action = some a) (ho : a.op = .clientAdd sock) :
    th = .main (.add sock) := by
  have hno : ∀ {β : Type} {b : Action β}, b.op.store ≠ some .clients → b.op ≠ .clientAdd sock :=
    fun hb he => hb (by rw [he]; rfl)
  have hfd := op_sock ha (by rw [ho]; rfl)
  cases th with
  | main pc =>
    cases pc with
    | add y =>
      cases ha
      cases ho
      rfl
    | reject y =>
      cases ha
      cases ho
    | _ => cases hfd
  | login y pc =>
    cases ha
    cases pc <;> cases ho
  | session y key pc =>
    cases ha
    exact absurd ho (hno ((clientLoop_within y key pc).store_ne (by simp)))
  | disconnect y pc =>
    cases ha
    cases pc <;> cases ho
  | _ => cases hfd

/-- What `server` is in when `lockServer` is in `p`: the slot of a handler that was started is
filled. -/
inductive Seen (p : LockServer) : Server → Prop
  | idle (hs : ∀ h, p.holder = some h → h.started = false) : Seen p p.pool
  | started (h : Holder) (sock : ℕ) (cs : List Client) (hh : p.holder = some h)
      (hs : h.started = true) (hth : p.pool.threads[h.thread]? = some (.main (.add sock)))
      (hcs : clientAdd p.pool.shared.clients sock = some cs) :
      Seen p ⟨{ p.pool.shared with clients := cs }, p.pool.threads.set h.thread (.main .accept)⟩

/-- The operation of the thread that has started a handler. -/
theorem opAt_add (hth : p.pool.threads[t]? = some (.main (.add sock))) (c : Choice) :
    opAt p.pool (.run t c) = some (.clientAdd sock) := opAt_run hth rfl

theorem thread_of_opAt {q : Server} (ho : opAt q (.run t c) = some o) :
    ∃ th a, q.threads[t]? = some th ∧ th.action = some a ∧ a.op = o := by
  obtain ⟨th, hth, ho⟩ := Option.bind_eq_some_iff.1 ho
  obtain ⟨a, ha, rfl⟩ := Option.map_eq_some_iff.1 ho
  exact ⟨th, a, hth, ha, rfl⟩

/-- The step of another thread, while `main` fills a slot. -/
theorem outside_started {q' : Server} (hth : p.pool.threads[h.thread]? = some (.main (.add sock)))
    (hcs : clientAdd p.pool.shared.clients sock = some cs)
    (ho : opAt p.pool (.run t c) = some o) (hfree : o.locksClients = false)
    (hq : server.next p.pool (.run t c) = some q') :
    q'.threads[h.thread]? = some (.main (.add sock)) ∧
      clientAdd q'.shared.clients sock = some cs ∧
      server.next ⟨{ p.pool.shared with clients := cs },
          p.pool.threads.set h.thread (.main .accept)⟩ (.run t c) =
        some ⟨{ q'.shared with clients := cs }, q'.threads.set h.thread (.main .accept)⟩ := by
  obtain ⟨th, a, r, ht, ha, hr, hthreads⟩ := server_run hq
  obtain rfl : a.op = o := Option.some.inj ((opAt_run ht ha).symm.trans ho)
  have hne : h.thread ≠ t := by
    rintro rfl
    rw [hth] at ht
    cases ht
    cases ha
    cases hfree
  have hstore : a.op.store ≠ some .clients := by
    intro hstore
    revert hfree hstore
    cases a.op <;> simp [Op.locksClients]
  have hlt : h.thread < p.pool.threads.length := (List.getElem?_eq_some_iff.1 hth).1
  refine ⟨?_, ?_, ?_⟩
  · rw [hthreads]
    exact Pool.getElem?_step_of_ne hne hth
  · rw [(exec_frame hr).clients hstore]
    exact hcs
  · have hr' : a.op.exec { p.pool.shared with clients := cs } c =
        some ({ q'.shared with clients := cs }, r) := by rw [exec_clients hfree, hr]; rfl
    refine Pool.next_run.2 ⟨th, { q'.shared with clients := cs }, a.next r, a.op.spawned r, ?_, ?_,
      ?_⟩
    · rw [List.getElem?_set_ne hne]
      exact ht
    · exact threadStep_eq_some.2 ⟨a, r, ha, hr', rfl, rfl⟩
    · rw [hthreads, List.set_append_left _ _ (by simpa using hlt), List.set_comm _ _ hne]

/-- **Each step is a step of `server`, or none.** -/
theorem seen_step (hI : Seen p q) (hp : lockServer.next p l = some p') :
    ∃ q', Seen p' q' ∧ (q' = q ∨ ∃ m, server.next q m = some q') := by
  cases lock_step hp with
  | env e q' hq =>
    obtain rfl := Pool.next_env.1 hq
    cases hI with
    | idle hs => exact ⟨_, .idle hs, .inr ⟨.env e, hq⟩⟩
    | started h sock cs hh hs hth hcs =>
      exact ⟨_, .started h sock cs hh hs hth hcs, .inr ⟨.env e, rfl⟩⟩
  | outside t c o q' ho hfree hq =>
    cases hI with
    | idle hs => exact ⟨_, .idle hs, .inr ⟨.run t c, hq⟩⟩
    | started h sock cs hh hs hth hcs =>
      obtain ⟨hth', hcs', hnext⟩ := outside_started hth hcs ho hfree hq
      exact ⟨_, .started h sock cs hh hs hth' hcs', .inr ⟨.run t c, hnext⟩⟩
  | lock t c o ho hlocks hnone =>
    cases hI with
    | idle hs =>
      refine ⟨_, .idle fun h hh => ?_, .inl rfl⟩
      cases hh
      rfl
    | started h sock cs hh =>
      rw [hnone] at hh
      cases hh
  | visit c o h n ho hsend hh =>
    cases hI with
    | idle hs =>
      refine ⟨_, .idle fun h' hh' => ?_, .inl rfl⟩
      cases hh'
      exact hs h hh
    | started h' sock cs hh' hs hth =>
      obtain rfl := Option.some.inj (hh.symm.trans hh')
      rw [opAt_add hth] at ho
      cases ho
      cases hsend
  | start c sock h cs ho hh hs hok hcs =>
    cases hI with
    | idle _ =>
      obtain ⟨th, a, hth, ha, hop⟩ := thread_of_opAt ho
      obtain rfl := add_of_op ha hop
      refine ⟨_, .started { h with started := true } sock cs rfl rfl ?_ hcs,
        .inr ⟨.run h.thread c, ?_⟩⟩
      · exact List.getElem?_append_left (List.getElem?_eq_some_iff.1 hth).1 ▸ hth
      · refine Pool.next_run.2 ⟨_, { p.pool.shared with clients := cs }, .main .accept,
          [.login sock .recv], hth, ?_, ?_⟩
        · refine threadStep_eq_some.2 ⟨_, true, rfl, ?_, rfl, rfl⟩
          simp [Action.map, mainThread, Op.exec, hok, hcs]
        · simp only [LockServer.start]
          rw [List.set_append_left _ _ (List.getElem?_eq_some_iff.1 hth).1]
    | started h' sock' cs' hh' hs' =>
      obtain rfl := Option.some.inj (hh.symm.trans hh')
      rw [hs] at hs'
      cases hs'
  | fill c sock h cs ho hh hs hcs =>
    cases hI with
    | idle hs' =>
      rw [hs' h hh] at hs
      cases hs
    | started h' sock' cs' hh' _ hth hcs' =>
      obtain rfl := Option.some.inj (hh.symm.trans hh')
      rw [opAt_add hth] at ho
      cases ho
      obtain rfl := Option.some.inj (hcs.symm.trans hcs')
      exact ⟨_, .idle (by simp), .inl rfl⟩
  | unlock c o h q' ho hlocks hh hadd hdone hq =>
    cases hI with
    | idle _ => exact ⟨_, .idle (by simp), .inr ⟨_, hq⟩⟩
    | started h' sock cs hh' hs hth =>
      obtain rfl := Option.some.inj (hh.symm.trans hh')
      rw [opAt_add hth] at ho
      rw [(hadd sock (Option.some.inj ho).symm).1] at hs
      cases hs

/-- **The critical sections are atomic**: what is reached with the mutex in the state is seen as a
state that `server` reaches. -/
theorem seen_of_reach {q₀ : Server} (hp : lockServer.Reach System.anyStep ⟨q₀, none⟩ p) :
    ∃ q, Seen p q ∧ server.Reach System.anyStep q₀ q :=
  hp.simulate (.idle (by simp)) fun _ _ _ _ hR _ hn => seen_step hR hn

/-! ### Every step of the server can be taken -/

/-- The loop of a sender goes through the slots that are left, and the mutex is given back. -/
theorem reach_unlock {q' : Server} (ho : opAt q (.run t c) = some o)
    (hsend : (∃ pkt, o = .broadcast pkt) ∨ ∃ key pkt, o = .unicastToKey key pkt)
    (hq : server.next q (.run t c) = some q') (n k : ℕ) (hk : q.shared.clients.length - n = k) :
    lockServer.Reach System.anyStep ⟨q, some { thread := t, visited := n }⟩ ⟨q', none⟩ := by
  have hstep : ∀ m p', (⟨q, some ⟨t, m, false⟩⟩ : LockServer).inside ⟨t, m, false⟩ c o = some p' →
      lockServer.next ⟨q, some ⟨t, m, false⟩⟩ (.run t c) = some p' := by
    intro m p' hp
    have hlocks : o.locksClients = true := by
      rcases hsend with ⟨pkt, rfl⟩ | ⟨key, pkt, rfl⟩ <;> rfl
    simp only [lockServer, ho, hlocks, if_true]
    exact hp
  -- on the slots that are left
  induction k using Nat.strong_induction_on generalizing n with
  | _ k ih =>
    by_cases hlt : n < q.shared.clients.length
    · rcases hsend with ⟨pkt, rfl⟩ | ⟨key, pkt, rfl⟩
      · refine (System.Reach.single (l := .run t c) trivial (hstep n _ (if_pos hlt))).trans ?_
        exact ih (q.shared.clients.length - (n + 1)) (by omega) (n + 1) rfl
      · have hget := List.getElem?_eq_getElem hlt
        refine (System.Reach.single (l := .run t c) trivial (hstep n _ ?_)).trans
          (ih (q.shared.clients.length - if q.shared.clients[n].sock ≠ 0 ∧
            q.shared.clients[n].key = key then q.shared.clients.length else n + 1) ?_ _ rfl)
        · simp only [LockServer.inside, hget]
        · split_ifs <;> omega
    · refine System.Reach.single (l := .run t c) trivial (hstep n _ ?_)
      rcases hsend with ⟨pkt, rfl⟩ | ⟨key, pkt, rfl⟩
      · simp only [LockServer.inside, if_neg hlt, LockServer.unlock, hq, Option.map_some]
      · simp only [LockServer.inside, List.getElem?_eq_none (not_lt.1 hlt), LockServer.unlock, hq,
          Option.map_some]

/-- `main` adds a connection while it holds the mutex. -/
theorem reach_add {q' : Server} (ho : opAt q (.run t c) = some (.clientAdd sock))
    (hq : server.next q (.run t c) = some q') :
    lockServer.Reach System.anyStep ⟨q, some { thread := t }⟩ ⟨q', none⟩ := by
  obtain ⟨th, a, hth, ha, hop⟩ := thread_of_opAt ho
  obtain rfl := add_of_op ha hop
  have hstep : ∀ h p' p'', (∃ threads, p' = (⟨⟨q.shared, threads⟩, some h⟩ : LockServer)) →
      p'.pool.threads[t]? = some (.main (.add sock)) → h.thread = t →
      p'.inside h c (.clientAdd sock) = some p'' → lockServer.next p' (.run t c) = some p'' := by
    rintro h _ p'' ⟨threads, rfl⟩ hth ht hp
    simp only [lockServer, opAt_add hth, Op.locksClients, if_true, ht]
    exact hp
  by_cases hadd : c.ok ∧ (clientAdd q.shared.clients sock).isSome
  · obtain ⟨cs, hcs⟩ := Option.isSome_iff_exists.1 hadd.2
    have hlt := (List.getElem?_eq_some_iff.1 hth).1
    have hdone : server.next q (.run t c) = some ⟨{ q.shared with clients := cs },
        q.threads.set t (.main .accept) ++ [.login sock .recv]⟩ := by
      refine Pool.next_run.2 ⟨_, { q.shared with clients := cs }, .main .accept,
        [.login sock .recv],
        hth, threadStep_eq_some.2 ⟨_, true, rfl, ?_, rfl, rfl⟩, rfl⟩
      simp [Action.map, mainThread, Op.exec, hadd.1, hcs]
    rw [hdone] at hq
    cases hq
    have hstart : (⟨q, some { thread := t }⟩ : LockServer).inside { thread := t } c
        (.clientAdd sock) = some (LockServer.start ⟨q, some { thread := t }⟩
          { thread := t } sock) := by
      simp only [LockServer.inside, Bool.false_eq_true, if_false, if_pos hadd]
    refine (System.Reach.single (l := .run t c) trivial
      (hstep { thread := t } _ _ ⟨_, rfl⟩ hth rfl hstart)).trans ?_
    refine System.Reach.single (l := .run t c) trivial
      (hstep { thread := t, started := true } _ _ ⟨_, rfl⟩ ?_ rfl ?_)
    · exact (List.getElem?_append_left hlt).trans hth
    · show LockServer.fill _ t sock = _
      rw [LockServer.fill]
      simp [LockServer.start, hcs, List.set_append_left _ _ hlt]
  · refine System.Reach.single (l := .run t c) trivial
      (hstep { thread := t } _ _ ⟨_, rfl⟩ hth rfl ?_)
    simp only [LockServer.inside, Bool.false_eq_true, if_false, if_neg hadd, LockServer.unlock, hq,
      Option.map_some]

/-- A step of `server`, with the mutex free before and after. -/
theorem reach_of_next {q' : Server} (hq : server.next q l = some q') :
    lockServer.Reach System.anyStep ⟨q, none⟩ ⟨q', none⟩ := by
  cases l with
  | env e =>
    refine System.Reach.single (l := .env e) trivial ?_
    simp only [lockServer, hq, Option.map_some]
  | run t c =>
    obtain ⟨th, a, r, hth, ha, hr, -⟩ := server_run hq
    have ho := opAt_run (c := c) hth ha
    by_cases hlocks : a.op.locksClients = true
    · have hlock : lockServer.next ⟨q, none⟩ (.run t c) = some ⟨q, some { thread := t }⟩ := by
        simp only [lockServer, ho, hlocks, if_true]
      refine (System.Reach.single (l := .run t c) trivial hlock).trans ?_
      have hother : (⟨q, some { thread := t }⟩ : LockServer).inside { thread := t } c a.op =
          LockServer.unlock ⟨q, some { thread := t }⟩ t c →
          lockServer.Reach System.anyStep ⟨q, some { thread := t }⟩ ⟨q', none⟩ := by
        intro hin
        refine System.Reach.single (l := .run t c) trivial ?_
        simp only [lockServer, ho, hlocks, if_true, hin, LockServer.unlock, hq, Option.map_some]
      revert ho hlocks hother
      cases a.op with
      | broadcast pkt => exact fun ho _ _ => reach_unlock ho (.inl ⟨pkt, rfl⟩) hq 0 _ rfl
      | unicastToKey key pkt =>
        exact fun ho _ _ => reach_unlock ho (.inr ⟨key, pkt, rfl⟩) hq 0 _ rfl
      | clientAdd sock => exact fun ho _ _ => reach_add ho hq
      | _ => exact fun _ _ hother => hother rfl
    · refine System.Reach.single (l := .run t c) trivial ?_
      simp only [lockServer, ho, if_neg hlocks, hq, Option.map_some]

/-- **The two agree** on the states in which the mutex is free. -/
theorem lockServer_reach_iff {q₀ : Server} :
    lockServer.Reach System.anyStep ⟨q₀, none⟩ ⟨q, none⟩ ↔ server.Reach System.anyStep q₀ q := by
  constructor
  · intro hp
    obtain ⟨q', hseen, hq'⟩ := seen_of_reach hp
    cases hseen with
    | idle _ => exact hq'
    | started h sock cs hh => cases hh
  · intro hq
    induction hq with
    | refl => exact .refl
    | step _ _ hn ih => exact ih.trans (reach_of_next hn)

end UnderFlow
