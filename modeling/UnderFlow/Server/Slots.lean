import UnderFlow.Server.Lives

/-!
# The client table and the descriptors

* `Lives` : the life of every descriptor agrees with the client table, the open descriptors and the
  threads.
* `alone`, `closer_alone` : who else answers for a descriptor.
* `lives_step` : what a step keeps.
* `tableKept_run` : `TableKept` holds in every run of `lockServer`.
-/

namespace UnderFlow

variable {s s' : Shared} {c : Choice} {th th' : Thread} {a : Action Thread} {p p' : LockServer}
  {q q' : Server} {o : Op} {l : Label} {t x sock : ℕ} {key : Key} {h : Holder} {cs : List Client}

/-! ### The client table -/

section Table

variable {cs' : List Client} {y : ℕ} {k : Key}

theorem mem_clientSockets_iff (hx : x ≠ 0) : x ∈ clientSockets cs ↔ ∃ k, ⟨x, k⟩ ∈ cs := by
  constructor
  · intro hmem
    obtain ⟨cl, hcl, rfl⟩ := List.mem_map.1 hmem
    exact ⟨cl.key, List.mem_of_mem_filter hcl⟩
  · rintro ⟨k, hk⟩
    exact List.mem_map.2 ⟨⟨x, k⟩, List.mem_filter.2 ⟨hk, by simpa using hx⟩, rfl⟩

theorem mem_clientAdd_iff (hadd : clientAdd cs x = some cs')
    (hfree : ∀ cl ∈ cs, cl.sock = 0 → cl.key = Key.empty) (hy : y ≠ 0) :
    ⟨y, k⟩ ∈ cs' ↔ (y = x ∧ k = Key.empty) ∨ ⟨y, k⟩ ∈ cs := by
  obtain ⟨⟨cl, _⟩, hu, rfl⟩ := Option.map_eq_some_iff.1 hadd
  obtain ⟨l₁, l₂, rfl, rfl, hcl, -⟩ := updateFirst_eq_some.1 hu
  have hsock : cl.sock = 0 := by simpa using hcl
  have hkey : cl.key = Key.empty := hfree cl (by simp) hsock
  have hne : (⟨y, k⟩ : Client) ≠ cl := fun he => hy (by rw [← hsock, ← he])
  simp only [List.mem_append, List.mem_cons, hne, hkey, Client.mk.injEq, false_or]
  tauto

theorem mem_clientRegister_iff (hx : x ≠ 0) (hmem : x ∈ clientSockets cs)
    (hnodup : (clientSockets cs).Nodup) : ⟨y, k⟩ ∈ clientRegister cs x key ↔
      (y = x ∧ k = key) ∨ (y ≠ x ∧ ⟨y, k⟩ ∈ cs) := by
  rw [clientRegister]
  rcases hu : updateFirst (fun c => c.sock == x) (fun c => { c with key := key }) cs with
    _ | ⟨cl, cs'⟩ <;> rw [hu]
  · obtain ⟨k', hk'⟩ := (mem_clientSockets_iff hx).1 hmem
    simpa using updateFirst_eq_none.1 hu _ hk'
  · obtain ⟨l₁, l₂, rfl, rfl, hcl, -⟩ := updateFirst_eq_some.1 hu
    have hsock : cl.sock = x := by simpa using hcl
    -- no other slot has the descriptor
    have hother : ∀ k, (⟨x, k⟩ : Client) ∉ l₁ ∧ (⟨x, k⟩ : Client) ∉ l₂ := by
      intro k
      have hsplit : clientSockets (l₁ ++ cl :: l₂) = clientSockets l₁ ++ x :: clientSockets l₂ := by
        simp [clientSockets, hsock, hx]
      rw [hsplit, List.nodup_middle, List.nodup_cons, List.mem_append, not_or] at hnodup
      exact ⟨fun hk => hnodup.1.1 ((mem_clientSockets_iff hx).2 ⟨k, hk⟩),
        fun hk => hnodup.1.2 ((mem_clientSockets_iff hx).2 ⟨k, hk⟩)⟩
    have hmk : ∀ {l : List Client}, (∀ k, (⟨x, k⟩ : Client) ∉ l) → ⟨y, k⟩ ∈ l → y ≠ x := by
      rintro l hno hk rfl
      exact hno k hk
    simp only [Option.map_some, Option.getD_some, List.mem_append, List.mem_cons]
    constructor
    · rintro (hk | hk | hk)
      · exact .inr ⟨hmk (fun k => (hother k).1) hk, .inl hk⟩
      · rw [hsock] at hk
        cases hk
        exact .inl ⟨rfl, rfl⟩
      · exact .inr ⟨hmk (fun k => (hother k).2) hk, .inr (.inr hk)⟩
    · rintro (⟨rfl, rfl⟩ | ⟨hy, hk | hk | hk⟩)
      · exact .inr (.inl (by rw [hsock]))
      · exact .inl hk
      · exact absurd (by rw [← hk] at hsock; exact hsock) hy
      · exact .inr (.inr hk)

theorem mem_clientRemove_iff (hx : x ≠ 0) (hnodup : (clientSockets cs).Nodup) (hy : y ≠ 0) :
    ⟨y, k⟩ ∈ clientRemove cs x ↔ y ≠ x ∧ ⟨y, k⟩ ∈ cs := by
  rw [clientRemove]
  rcases hu : updateFirst (fun c => c.sock == x) (fun _ => {}) cs with _ | ⟨cl, cs'⟩ <;> rw [hu]
  · refine ⟨fun hk => ⟨?_, hk⟩, fun hk => hk.2⟩
    simpa using updateFirst_eq_none.1 hu _ hk
  · obtain ⟨l₁, l₂, rfl, rfl, hcl, -⟩ := updateFirst_eq_some.1 hu
    have hsock : cl.sock = x := by simpa using hcl
    have hsplit : clientSockets (l₁ ++ cl :: l₂) = clientSockets l₁ ++ x :: clientSockets l₂ := by
      simp [clientSockets, hsock, hx]
    rw [hsplit, List.nodup_middle, List.nodup_cons, List.mem_append, not_or] at hnodup
    have hne : ∀ {l : List Client}, x ∉ clientSockets l → ⟨y, k⟩ ∈ l → y ≠ x := by
      rintro l hno hk rfl
      exact hno ((mem_clientSockets_iff hx).2 ⟨k, hk⟩)
    simp only [Option.map_some, Option.getD_some, List.mem_append, List.mem_cons]
    constructor
    · rintro (hk | hk | hk)
      · exact ⟨hne hnodup.1.1 hk, .inl hk⟩
      · cases hk
        exact absurd rfl hy
      · exact ⟨hne hnodup.1.2 hk, .inr (.inr hk)⟩
    · rintro ⟨hyx, hk | hk | hk⟩
      · exact .inl hk
      · exact absurd (by rw [← hk] at hsock; exact hsock) hyx
      · exact .inr (.inr hk)

end Table

/-! ### The invariant -/

theorem lifeOf_concat (hist : List TableEvent) (e : TableEvent) : lifeOf x (hist ++ [e]) =
    if e.fd = x then (lifeOf x hist).bind (·.next e) else lifeOf x hist := by
  rw [lifeOf, List.foldl_append]
  rfl

/-- The life of a descriptor agrees with the state. -/
structure Agree (p : LockServer) (x : ℕ) (life : Life) : Prop where
  isOpen : x ∈ p.pool.shared.openFds ↔ life ≠ .closed
  slot : x ≠ 0 → ∀ key, ⟨x, key⟩ ∈ p.pool.shared.clients ↔ ∃ asked, life = .served asked key
  threads : ∀ u ∈ p.pool.threads, u.fd = some x → u.Agrees life

/-- The client table agrees with the lives of the descriptors. -/
structure Lives (p : LockServer) (hist : List TableEvent) : Prop where
  fds : p.pool.shared.openFds.Nodup
  zero : 0 ∉ p.pool.shared.openFds
  free : ∀ cl ∈ p.pool.shared.clients, cl.sock = 0 → cl.key = Key.empty
  life : ∀ x, ∃ life, lifeOf x hist = some life ∧ Agree p x life

variable {hist : List TableEvent} {life life' : Life}

theorem agrees_ne_closed (hfd : th.fd = some x) (ha : th.Agrees life) : life ≠ .closed := by
  rintro rfl
  cases th with
  | main pc =>
    obtain ⟨asked, ha⟩ := ha
    cases ha
  | login sock pc => exact ha.1
  | session sock key pc => exact ha
  | disconnect sock pc =>
    cases pc with
    | remove => exact ha
    | close => cases ha
  | _ => cases hfd

/-- A handler of a slot is at work. -/
theorem agrees_running (hh : th.handles = some x) (ha : th.Agrees life) : life.Running := by
  cases th with
  | login sock pc => exact ha.1
  | session sock key pc => exact ha
  | disconnect sock pc =>
    cases pc with
    | remove => exact ha
    | close => cases hh
  | _ => cases hh

/-- A handler does not see whether its slot is filled. -/
theorem agrees_of_running (hh : th.handles = some x) (ha : th.Agrees life) (hrun : life'.Running)
    (hasked : life'.asked = life.asked) : th.Agrees life' := by
  cases th with
  | login sock pc => exact ⟨hrun, fun k hk => hasked.trans (ha.2 k hk)⟩
  | session sock key pc => exact hrun
  | disconnect sock pc =>
    cases pc with
    | remove => exact hrun
    | close => cases hh
  | _ => cases hh

/-- Who answers for a descriptor without a slot may close it. -/
theorem agrees_next_closed (hfd : th.fd = some x) (hno : th.handles = none) (ha : th.Agrees life) :
    life.next (.closed x) = some .closed := by
  cases th with
  | main pc =>
    obtain ⟨asked, rfl⟩ := ha
    rfl
  | disconnect sock pc =>
    cases pc with
    | remove => cases hno
    | close =>
      obtain rfl : life = .left := ha
      rfl
  | login sock pc => cases hno
  | session sock key pc => cases hno
  | _ => cases hfd

theorem Life.Running.wrote (hrun : life.Running) : life.next (.wrote x) = some life := by
  cases life with
  | accepted asked | served asked key => rfl
  | _ => exact hrun.elim

theorem Life.Running.ask (hrun : life.Running) (key : Key) : ∃ life',
    life.next (.asked x key) = some life' ∧ life'.Running ∧ life'.asked = some key ∧
      (∀ k, (∃ asked, life' = .served asked k) ↔ ∃ asked, life = .served asked k) ∧
      ∀ asked, life = .accepted asked → life' = .accepted (some key) := by
  cases life with
  | accepted asked =>
    refine ⟨.accepted (some key), rfl, trivial, rfl, fun k => ?_, fun _ _ => rfl⟩
    constructor <;> rintro ⟨_, he⟩ <;> cases he
  | served asked key' =>
    refine ⟨.served (some key) key', rfl, trivial, rfl, fun k => ?_, nofun⟩
    constructor <;> rintro ⟨_, he⟩ <;> cases he <;> exact ⟨_, rfl⟩
  | _ => exact hrun.elim

/-- A step without events. -/
theorem Lives.silent (hI : Lives p hist) (hfds : p'.pool.shared.openFds.Nodup)
    (hzero : 0 ∉ p'.pool.shared.openFds)
    (hfree : ∀ cl ∈ p'.pool.shared.clients, cl.sock = 0 → cl.key = Key.empty)
    (h : ∀ y life, Agree p y life → Agree p' y life) : Lives p' (hist ++ []) := by
  refine ⟨hfds, hzero, hfree, fun y => ?_⟩
  obtain ⟨life, hlife, ha⟩ := hI.life y
  exact ⟨life, by rwa [List.append_nil], h y life ha⟩

/-- A step with one event. -/
theorem Lives.concat (hI : Lives p hist) (hfds : p'.pool.shared.openFds.Nodup)
    (hzero : 0 ∉ p'.pool.shared.openFds)
    (hfree : ∀ cl ∈ p'.pool.shared.clients, cl.sock = 0 → cl.key = Key.empty) (e : TableEvent)
    (hown : ∀ life, Agree p e.fd life → ∃ life', life.next e = some life' ∧ Agree p' e.fd life')
    (hother : ∀ y life, y ≠ e.fd → Agree p y life → Agree p' y life) :
    Lives p' (hist ++ [e]) := by
  refine ⟨hfds, hzero, hfree, fun y => ?_⟩
  obtain ⟨life, hlife, ha⟩ := hI.life y
  rw [lifeOf_concat]
  by_cases hy : e.fd = y
  · subst hy
    obtain ⟨life', hnext, ha'⟩ := hown life ha
    exact ⟨life', by rw [if_pos rfl, hlife, Option.bind_some, hnext], ha'⟩
  · exact ⟨life, by rw [if_neg hy, hlife], hother y life (Ne.symm hy) ha⟩

/-- A descriptor a thread answers for is open. -/
theorem Lives.fd_open (hI : Lives p hist) (hth : th ∈ p.pool.threads) (hfd : th.fd = some x) :
    x ≠ 0 ∧ x ∈ p.pool.shared.openFds := by
  obtain ⟨life, -, ha⟩ := hI.life x
  have hopen : x ∈ p.pool.shared.openFds :=
    ha.isOpen.2 (agrees_ne_closed hfd (ha.threads th hth hfd))
  exact ⟨fun h0 => hI.zero (h0 ▸ hopen), hopen⟩

/-! ### Who answers for a descriptor -/

/-- Two threads answer for one descriptor only while `main` fills its slot. -/
theorem alone (hS : Seen p q) (hC : Connected q) {j : ℕ} {u : Thread}
    (hth : p.pool.threads[t]? = some th) (hx : th.fd = some x)
    (hu : p.pool.threads[j]? = some u) (hux : u.fd = some x) : j = t ∨
      ∃ h, p.holder = some h ∧ h.started = true ∧
        ((h.thread = j ∧ u = .main (.add x)) ∨ (h.thread = t ∧ th = .main (.add x))) := by
  cases hS with
  | idle _ => exact .inl (hC.fds j t u th x hu hth hux hx)
  | started h sock cs hh hs hadd hcs =>
    by_cases hj : h.thread = j
    · subst hj
      rw [hadd] at hu
      cases hu
      cases hux
      exact .inr ⟨h, hh, hs, .inl ⟨rfl, rfl⟩⟩
    · by_cases ht : h.thread = t
      · subst ht
        rw [hadd] at hth
        cases hth
        cases hx
        exact .inr ⟨h, hh, hs, .inr ⟨rfl, rfl⟩⟩
      · have hget : ∀ {k : ℕ} {v : Thread}, h.thread ≠ k → p.pool.threads[k]? = some v →
            (p.pool.threads.set h.thread (.main .accept))[k]? = some v := by
          intro k v hk hv
          rwa [List.getElem?_set_ne hk]
        exact .inl (hC.fds j t u th x (hget hj hu) (hget ht hth) hux hx)

/-- The slots in use, and their handlers. -/
theorem seen_table (hS : Seen p q) (hC : Connected q) (hI : Lives p hist) :
    (clientSockets p.pool.shared.clients).Nodup ∧
      ∀ x ∈ clientSockets p.pool.shared.clients, ∃ (t : ℕ) (th : Thread),
        p.pool.threads[t]? = some th ∧ th.handles = some x ∧
        ∀ (j : ℕ) (u : Thread), p.pool.threads[j]? = some u → u.fd = some x → j = t := by
  cases hS with
  | idle _ =>
    refine ⟨hC.nodup, fun x hx => ?_⟩
    obtain ⟨th, hth, hh⟩ := hC.handled x hx
    obtain ⟨t, ht⟩ := List.getElem?_of_mem hth
    exact ⟨t, th, ht, hh, fun j u hu hux => hC.fds j t u th x hu ht hux (fd_of_handles hh)⟩
  | started h sock cs hh hs hadd hcs =>
    have h0 := (hI.fd_open (List.mem_of_getElem? hadd) rfl).1
    have hperm := clientSockets_add hcs h0
    obtain ⟨hnot, hnodup⟩ := List.nodup_cons.1 (hperm.nodup_iff.1 hC.nodup)
    refine ⟨hnodup, fun x hx => ?_⟩
    obtain ⟨th, hth, hhx⟩ := hC.handled x (hperm.mem_iff.2 (List.mem_cons_of_mem _ hx))
    obtain ⟨t, ht⟩ := List.getElem?_of_mem hth
    have hne : h.thread ≠ t := by
      rintro rfl
      rw [List.getElem?_set_self (List.getElem?_eq_some_iff.1 hadd).1] at ht
      cases ht
      cases hhx
    have ht' : p.pool.threads[t]? = some th := by
      rwa [List.getElem?_set_ne hne] at ht
    refine ⟨t, th, ht', hhx, fun j u hu hux => ?_⟩
    by_cases hj : h.thread = j
    · subst hj
      rw [hadd] at hu
      cases hu
      cases hux
      exact absurd hx hnot
    · refine hC.fds j t u th x ?_ ht hux (fd_of_handles hhx)
      rwa [List.getElem?_set_ne hj]

/-- Who closes a descriptor is the only one who answers for it. -/
theorem closer_alone (hS : Seen p q) (hC : Connected q) (hI : Lives p hist) {j : ℕ} {u : Thread}
    (hth : p.pool.threads[t]? = some th) (hx : th.fd = some x) (hno : th.handles = none)
    (hadd : th ≠ .main (.add x)) (hu : p.pool.threads[j]? = some u) (hux : u.fd = some x) :
    j = t := by
  rcases alone hS hC hth hx hu hux with hj | ⟨h, hh, hs, ⟨rfl, rfl⟩ | ⟨-, he⟩⟩
  · exact hj
  · -- the handler that was started has the descriptor
    cases hS with
    | idle hidle =>
      rw [hidle h hh] at hs
      cases hs
    | started h' sock cs hh' _ hadd' hcs =>
      obtain rfl := Option.some.inj (hh.symm.trans hh')
      rw [hadd'] at hu
      cases hu
      have h0 := (hI.fd_open (List.mem_of_getElem? hth) hx).1
      obtain ⟨v, hv, hvx⟩ := hC.handled x
        ((clientSockets_add hcs h0).mem_iff.2 List.mem_cons_self)
      obtain ⟨k, hk⟩ := List.getElem?_of_mem hv
      have hne : h.thread ≠ t := by
        rintro rfl
        rw [hadd'] at hth
        cases hth
        exact hadd rfl
      have ht : (p.pool.threads.set h.thread (.main .accept))[t]? = some th := by
        rwa [List.getElem?_set_ne hne]
      obtain rfl := hC.fds k t v th x hk ht (fd_of_handles hvx) hx
      rw [hk] at ht
      cases ht
      rw [hno] at hvx
      cases hvx
  · exact absurd he hadd

/-! ### One step -/

/-- The threads after a step agree with the life of a descriptor. -/
theorem threads_agree {new : List Thread} {y : ℕ}
    (hthreads : p'.pool.threads = p.pool.threads.set t th' ++ new) (hnew : ∀ u ∈ new, u.fd = none)
    (hself : th'.fd = some y → th'.Agrees life')
    (hothers : ∀ (j : ℕ) (u : Thread), j ≠ t → p.pool.threads[j]? = some u → u.fd = some y →
      u.Agrees life') : ∀ u ∈ p'.pool.threads, u.fd = some y → u.Agrees life' := by
  intro u hu hy
  rw [hthreads] at hu
  obtain ⟨j, hj⟩ := List.getElem?_of_mem hu
  rcases Pool.getElem?_step hj with ⟨hjt, hj⟩ | ⟨-, rfl⟩ | hn
  · exact hothers j u hjt hj hy
  · exact hself hy
  · rw [hnew u hn] at hy
    cases hy

/-- The threads that did not run agree with what they agreed with. -/
theorem others_agree {new : List Thread} {y : ℕ}
    (hthreads : p'.pool.threads = p.pool.threads.set t th' ++ new) (hnew : ∀ u ∈ new, u.fd = none)
    (hA : Agree p y life) (hself : th'.fd = some y → th'.Agrees life) :
    ∀ u ∈ p'.pool.threads, u.fd = some y → u.Agrees life :=
  threads_agree hthreads hnew hself
    fun _ u _ hu hy => hA.threads u (List.mem_of_getElem? hu) hy

/-- A handler in its critical section is served. -/
theorem served_of_handles (hth : p.pool.threads[t]? = some th) (hI : Lives p hist)
    (hL : Slotted p.pool)
    (hA : Agree p x life) (hh : th.handles = some x) : x ∈ clientSockets p.pool.shared.clients ∧
      ∃ asked k, life = .served asked k := by
  have hmem : th ∈ p.pool.threads := List.mem_of_getElem? hth
  have h0 := (hI.fd_open hmem (fd_of_handles hh)).1
  have hx := hL th hmem x hh
  obtain ⟨k, hk⟩ := (mem_clientSockets_iff h0).1 hx
  obtain ⟨asked, he⟩ := (hA.slot h0 k).1 hk
  exact ⟨hx, asked, k, he⟩

section Step

variable {new : List Thread} (hth : p.pool.threads[t]? = some th)
  (hthreads : p'.pool.threads = p.pool.threads.set t th' ++ new)

include hth hthreads

/-- A step that leaves the client table and the descriptors. -/
theorem lives_quiet (hI : Lives p hist) {ev : List TableEvent}
    (hclients : p'.pool.shared.clients = p.pool.shared.clients)
    (hfds : p'.pool.shared.openFds = p.pool.shared.openFds)
    (hfd : ∀ x, th'.fd = some x → th.fd = some x)
    (hagrees : ∀ x life, th'.fd = some x → th.Agrees life → th'.Agrees life)
    (hnew : ∀ u ∈ new, u.fd = none)
    (hev : ev = [] ∨ ∃ x, th.handles = some x ∧ ev = [.wrote x]) : Lives p' (hist ++ ev) := by
  have hmem : th ∈ p.pool.threads := List.mem_of_getElem? hth
  have hstep : ∀ y life, Agree p y life → Agree p' y life := by
    intro y life hA
    refine ⟨by rw [hfds]; exact hA.isOpen, by rw [hclients]; exact hA.slot, ?_⟩
    exact others_agree hthreads hnew hA fun hy => hagrees y life hy (hA.threads th hmem (hfd y hy))
  have hfds' : p'.pool.shared.openFds.Nodup := by rw [hfds]; exact hI.fds
  have hzero : 0 ∉ p'.pool.shared.openFds := by rw [hfds]; exact hI.zero
  have hfree : ∀ cl ∈ p'.pool.shared.clients, cl.sock = 0 → cl.key = Key.empty := by
    rw [hclients]
    exact hI.free
  rcases hev with rfl | ⟨x, hx, rfl⟩
  · exact hI.silent hfds' hzero hfree hstep
  · refine hI.concat hfds' hzero hfree (.wrote x) (fun life hA => ?_) fun y life _ => hstep y life
    have hrun := agrees_running hx (hA.threads th hmem (fd_of_handles hx))
    exact ⟨life, hrun.wrote, hstep x life hA⟩

omit hth in
theorem lives_accept (hI : Lives p hist) (h0 : x ≠ 0) (hfresh : x ∉ p.pool.shared.openFds)
    (hth' : th' = .main (.add x)) (hnew : new = [])
    (hs : p'.pool.shared = { p.pool.shared with openFds := x :: p.pool.shared.openFds }) :
    Lives p' (hist ++ [.accepted x]) := by
  have hopen : ∀ y, y ∈ p'.pool.shared.openFds ↔ y = x ∨ y ∈ p.pool.shared.openFds := by
    intro y
    rw [hs]
    exact List.mem_cons
  have hno : ∀ u ∈ new, u.fd = none := by rw [hnew]; simp
  have hself : ∀ {y}, th'.fd = some y → y = x := by
    intro y hy
    rw [hth'] at hy
    exact (Option.some.inj hy).symm
  refine hI.concat ?_ ?_ (by rw [hs]; exact hI.free) (.accepted x) (fun life hA => ?_)
    fun y life hy hA => ?_
  · rw [hs]
    exact List.nodup_cons.2 ⟨hfresh, hI.fds⟩
  · rw [hopen]
    rintro (rfl | h)
    · exact h0 rfl
    · exact hI.zero h
  · have hclosed : life = .closed := by
      by_contra hne
      exact hfresh (hA.isOpen.2 hne)
    subst hclosed
    refine ⟨.accepted none, rfl, ⟨by simp [hopen, TableEvent.fd], fun hx key => ?_, ?_⟩⟩
    · have hslot := hA.slot hx key
      rw [hs]
      constructor
      · intro hmem
        obtain ⟨asked, he⟩ := hslot.1 hmem
        cases he
      · rintro ⟨asked, he⟩
        cases he
    · refine threads_agree hthreads hno (fun _ => by rw [hth']; exact ⟨none, rfl⟩) ?_
      intro j u _ hu hux
      exact absurd rfl (agrees_ne_closed hux (hA.threads u (List.mem_of_getElem? hu) hux))
  · refine ⟨?_, by rw [hs]; exact hA.slot, ?_⟩
    · rw [hopen, ← hA.isOpen]
      exact or_iff_right hy
    · exact others_agree hthreads hno hA fun h => absurd (hself h) hy

theorem lives_ask (hI : Lives p hist) (hS : Seen p q) (hC : Connected q)
    (hh : th.handles = some x) (hh' : th'.handles = some x)
    (hagrees : ∀ life : Life, life.Running → life.asked = some key → th'.Agrees life)
    (hs : p'.pool.shared = p.pool.shared) (hnew : new = []) :
    Lives p' (hist ++ [.asked x key]) := by
  have hno : ∀ u ∈ new, u.fd = none := by rw [hnew]; simp
  have hmem : th ∈ p.pool.threads := List.mem_of_getElem? hth
  refine hI.concat (by rw [hs]; exact hI.fds) (by rw [hs]; exact hI.zero)
    (by rw [hs]; exact hI.free) (.asked x key) (fun life hA => ?_) fun y life hy hA => ?_
  · have hrun := agrees_running hh (hA.threads th hmem (fd_of_handles hh))
    obtain ⟨life', hnext, hrun', hasked, hserved, hacc⟩ := hrun.ask (x := x) key
    refine ⟨life', hnext, ⟨?_, fun hx k => ?_, ?_⟩⟩
    · rw [hs, hA.isOpen]
      refine iff_of_true ?_ ?_ <;> rintro rfl
      · exact hrun
      · exact hrun'
    · rw [hs, hserved]
      exact hA.slot hx k
    · refine threads_agree hthreads hno (fun _ => hagrees life' hrun' hasked) ?_
      intro j u hj hu hux
      rcases alone hS hC hth (fd_of_handles hh) hu hux with hjt | ⟨h, -, -, ⟨-, rfl⟩ | ⟨-, rfl⟩⟩
      · exact absurd hjt hj
      · obtain ⟨asked, he⟩ := hA.threads _ (List.mem_of_getElem? hu) hux
        exact ⟨_, hacc asked he⟩
      · cases hh
  · refine ⟨by rw [hs]; exact hA.isOpen, by rw [hs]; exact hA.slot, ?_⟩
    refine others_agree hthreads hno hA fun hfd => ?_
    rw [fd_of_handles hh'] at hfd
    exact absurd (Option.some.inj hfd).symm hy

theorem lives_close (hI : Lives p hist) (hS : Seen p q) (hC : Connected q) (hx : th.fd = some x)
    (hno : th.handles = none) (hadd : th ≠ .main (.add x)) (hth' : th'.fd = none)
    (hs : p'.pool.shared = { p.pool.shared with openFds := p.pool.shared.openFds.erase x })
    (hnew : new = []) : Lives p' (hist ++ [.closed x]) := by
  have hnone : ∀ u ∈ new, u.fd = none := by rw [hnew]; simp
  have hmem : th ∈ p.pool.threads := List.mem_of_getElem? hth
  have hself : ∀ {y}, th'.fd = some y → False := by
    intro y hy
    rw [hth'] at hy
    cases hy
  refine hI.concat ?_ ?_ (by rw [hs]; exact hI.free) (.closed x) (fun life hA => ?_)
    fun y life hy hA => ?_
  · rw [hs]
    exact hI.fds.erase x
  · rw [hs]
    exact fun h0 => hI.zero (List.mem_of_mem_erase h0)
  · have ha := hA.threads th hmem hx
    refine ⟨.closed, agrees_next_closed hx hno ha, ⟨?_, fun h0 k => ?_, ?_⟩⟩
    · rw [hs]
      simp [TableEvent.fd, hI.fds.mem_erase_iff]
    · rw [hs]
      constructor
      · intro hk
        obtain ⟨asked, rfl⟩ := (hA.slot h0 k).1 hk
        have := agrees_next_closed hx hno ha
        cases this
      · rintro ⟨asked, he⟩
        cases he
    · refine threads_agree hthreads hnone (fun h => (hself h).elim) fun j u hj hu hux => ?_
      exact absurd (closer_alone hS hC hI hth hx hno hadd hu hux) hj
  · refine ⟨?_, by rw [hs]; exact hA.slot, ?_⟩
    · rw [hs]
      exact (List.mem_erase_of_ne (show y ≠ x from hy)).trans hA.isOpen
    · exact others_agree hthreads hnone hA fun h => (hself h).elim

theorem lives_register (hI : Lives p hist) (hC : Connected p.pool) (hL : Slotted p.pool)
    {rec : UserRecord} (hth₁ : th = .login x (.register key rec))
    (hth' : th' = .login x (.mkdir key rec))
    (hs : p'.pool.shared =
      { p.pool.shared with clients := clientRegister p.pool.shared.clients x key })
    (hnew : new = []) : Lives p' (hist ++ [.named x key]) := by
  subst hth₁
  have hno : ∀ u ∈ new, u.fd = none := by rw [hnew]; simp
  have hmem : Thread.login x (.register key rec) ∈ p.pool.threads := List.mem_of_getElem? hth
  have h0 := (hI.fd_open hmem rfl).1
  have hx := hL _ hmem x rfl
  refine hI.concat (by rw [hs]; exact hI.fds) (by rw [hs]; exact hI.zero) ?_ (.named x key)
    (fun life hA => ?_) fun y life hy hA => ?_
  · rw [hs]
    intro cl hcl hcl0
    rcases mem_clientRegister hcl with hold | hsock
    · exact hI.free cl hold hcl0
    · exact absurd (hsock.symm.trans hcl0) h0
  · obtain ⟨-, asked, k, rfl⟩ := served_of_handles hth hI hL hA rfl
    have hasked : asked = some key := (hA.threads _ hmem rfl).2 key rfl
    refine ⟨.served asked key, if_pos hasked, ⟨?_, fun _ k' => ?_, ?_⟩⟩
    · rw [hs]
      exact hA.isOpen.trans ⟨nofun, nofun⟩
    · rw [hs]
      refine (mem_clientRegister_iff h0 hx hC.nodup).trans ?_
      constructor
      · rintro (⟨-, rfl⟩ | ⟨hne, -⟩)
        · exact ⟨asked, rfl⟩
        · exact absurd rfl hne
      · rintro ⟨_, he⟩
        cases he
        exact .inl ⟨rfl, rfl⟩
    · refine threads_agree hthreads hno (fun _ => ?_) fun j u hj hu hux => ?_
      · rw [hth']
        exact ⟨trivial, nofun⟩
      · exact absurd (hC.fds j t u _ x hu hth hux rfl) hj
  · refine ⟨by rw [hs]; exact hA.isOpen, fun hy0 k => ?_, ?_⟩
    · rw [← hA.slot hy0 k, hs]
      refine (mem_clientRegister_iff h0 hx hC.nodup).trans ?_
      exact ⟨fun h => h.elim (fun h => absurd h.1 hy) And.right, fun h => .inr ⟨hy, h⟩⟩
    · refine others_agree hthreads hno hA fun hfd => ?_
      rw [hth'] at hfd
      exact absurd (Option.some.inj hfd).symm hy

theorem lives_remove (hI : Lives p hist) (hC : Connected p.pool) (hL : Slotted p.pool)
    (hth₁ : th = .disconnect x .remove) (hth' : th' = .disconnect x .close)
    (hs : p'.pool.shared = { p.pool.shared with clients := clientRemove p.pool.shared.clients x })
    (hnew : new = []) : Lives p' (hist ++ [.cleared x]) := by
  subst hth₁
  have hno : ∀ u ∈ new, u.fd = none := by rw [hnew]; simp
  have hmem : Thread.disconnect x .remove ∈ p.pool.threads := List.mem_of_getElem? hth
  have h0 := (hI.fd_open hmem rfl).1
  refine hI.concat (by rw [hs]; exact hI.fds) (by rw [hs]; exact hI.zero) ?_ (.cleared x)
    (fun life hA => ?_) fun y life hy hA => ?_
  · rw [hs]
    intro cl hcl hcl0
    rcases mem_clientRemove hcl with hold | rfl
    · exact hI.free cl hold hcl0
    · rfl
  · obtain ⟨-, asked, k, rfl⟩ := served_of_handles hth hI hL hA rfl
    refine ⟨.left, rfl, ⟨?_, fun _ k' => ?_, ?_⟩⟩
    · rw [hs]
      exact hA.isOpen.trans ⟨nofun, nofun⟩
    · rw [hs]
      refine (mem_clientRemove_iff h0 hC.nodup h0).trans ⟨fun h => absurd rfl h.1, ?_⟩
      rintro ⟨_, he⟩
      cases he
    · refine threads_agree hthreads hno (fun _ => by rw [hth']; rfl) fun j u hj hu hux => ?_
      exact absurd (hC.fds j t u _ x hu hth hux rfl) hj
  · refine ⟨by rw [hs]; exact hA.isOpen, fun hy0 k => ?_, ?_⟩
    · rw [← hA.slot hy0 k, hs]
      exact (mem_clientRemove_iff h0 hC.nodup hy0).trans ⟨And.right, fun h => ⟨hy, h⟩⟩
    · refine others_agree hthreads hno hA fun hfd => ?_
      rw [hth'] at hfd
      exact absurd (Option.some.inj hfd).symm hy

end Step

/-- `main` starts a handler. -/
theorem lives_start (hI : Lives p hist)
    (hth : p.pool.threads[h.thread]? = some (.main (.add sock))) :
    Lives (p.start h sock) (hist ++ []) := by
  refine hI.silent hI.fds hI.zero hI.free fun y life hA => ⟨hA.isOpen, hA.slot, fun u hu hy => ?_⟩
  rcases List.mem_append.1 hu with hu | hu
  · exact hA.threads u hu hy
  · obtain rfl := List.mem_singleton.1 hu
    cases hy
    obtain ⟨asked, rfl⟩ := hA.threads _ (List.mem_of_getElem? hth) rfl
    exact ⟨trivial, nofun⟩

/-- `main` fills the slot of the handler. -/
theorem lives_fill (hI : Lives p hist) (hth : p.pool.threads[t]? = some (.main (.add sock)))
    (hcs : clientAdd p.pool.shared.clients sock = some cs)
    (hp' : p' = ⟨⟨{ p.pool.shared with clients := cs }, p.pool.threads.set t (.main .accept)⟩,
      none⟩) (hC : Connected p'.pool) : Lives p' (hist ++ [.filled sock]) := by
  have hmem : Thread.main (.add sock) ∈ p.pool.threads := List.mem_of_getElem? hth
  have h0 := (hI.fd_open hmem rfl).1
  have hthreads : p'.pool.threads = p.pool.threads.set t (.main .accept) ++ [] := by
    rw [hp', List.append_nil]
  have hfds : p'.pool.shared.openFds = p.pool.shared.openFds := by rw [hp']
  have hclients : p'.pool.shared.clients = cs := by rw [hp']
  refine hI.concat (hfds ▸ hI.fds) (hfds ▸ hI.zero) hC.free (.filled sock) (fun life hA => ?_)
    fun y life hy hA => ?_
  · obtain ⟨asked, rfl⟩ := hA.threads _ hmem rfl
    refine ⟨.served asked Key.empty, rfl, ⟨?_, fun _ k => ?_, ?_⟩⟩
    · rw [hfds]
      exact hA.isOpen.trans ⟨nofun, nofun⟩
    · rw [hclients]
      refine (mem_clientAdd_iff hcs hI.free h0).trans ?_
      constructor
      · rintro (⟨-, rfl⟩ | hk)
        · exact ⟨asked, rfl⟩
        · obtain ⟨_, he⟩ := (hA.slot h0 k).1 hk
          cases he
      · rintro ⟨_, he⟩
        cases he
        exact .inl ⟨rfl, rfl⟩
    · refine threads_agree hthreads (by simp) nofun fun j u hj hu hux => ?_
      -- the thread is the handler of the new slot
      obtain ⟨v, hv, hvx⟩ := hC.handled sock
        (hclients ▸ (clientSockets_add hcs h0).mem_iff.2 List.mem_cons_self)
      obtain ⟨k, hk⟩ := List.getElem?_of_mem hv
      have hu' : p'.pool.threads[j]? = some u := by
        rw [hthreads]
        exact Pool.getElem?_step_of_ne hj hu
      obtain rfl := hC.fds k j v u sock hk hu' (fd_of_handles hvx) hux
      rw [hk] at hu'
      cases hu'
      exact agrees_of_running hvx (hA.threads _ (List.mem_of_getElem? hu) hux) trivial rfl
  · refine ⟨hfds ▸ hA.isOpen, fun hy0 k => ?_, others_agree hthreads (by simp) hA nofun⟩
    rw [← hA.slot hy0 k, hclients]
    refine (mem_clientAdd_iff hcs hI.free hy0).trans ?_
    exact ⟨fun h => h.elim (fun h => absurd h.1 hy) id, .inr⟩

/-- The loop of a sender writes to connections that are served. -/
theorem lives_visit (hI : Lives p hist) (hsend : o.sends = true) (hpool : p'.pool = p.pool) :
    Lives p' (hist ++ h.lifeEvents p.pool.shared.clients o) := by
  have hsame : ∀ y life, Agree p y life → Agree p' y life := by
    intro y life hA
    exact ⟨hpool ▸ hA.isOpen, hpool ▸ hA.slot, hpool ▸ hA.threads⟩
  have hfds : p'.pool.shared.openFds.Nodup := hpool ▸ hI.fds
  have hzero : 0 ∉ p'.pool.shared.openFds := hpool ▸ hI.zero
  have hfree : ∀ cl ∈ p'.pool.shared.clients, cl.sock = 0 → cl.key = Key.empty := hpool ▸ hI.free
  have hserved : ∀ cl : Client, p.pool.shared.clients[h.visited]? = some cl → cl.sock ≠ 0 →
      ∀ life, Agree p cl.sock life → ∃ asked, life = .served asked cl.key := by
    intro cl hcl h0 life hA
    exact (hA.slot h0 cl.key).1 (List.mem_of_getElem? hcl)
  cases o with
  | broadcast pkt =>
    simp only [Holder.lifeEvents]
    split
    · rename_i cl hcl
      split_ifs with h0
      · refine hI.concat hfds hzero hfree (.published cl.sock) (fun life hA => ?_)
          fun y life _ => hsame y life
        obtain ⟨asked, rfl⟩ := hserved cl hcl h0 life hA
        exact ⟨_, rfl, hsame _ _ hA⟩
      · exact hI.silent hfds hzero hfree hsame
    · exact hI.silent hfds hzero hfree hsame
  | unicastToKey key pkt =>
    simp only [Holder.lifeEvents]
    split
    · rename_i cl hcl
      split_ifs with h0
      · refine hI.concat hfds hzero hfree (.told cl.sock key) (fun life hA => ?_)
          fun y life _ => hsame y life
        obtain ⟨asked, rfl⟩ := hserved cl hcl h0.1 life hA
        exact ⟨_, if_pos h0.2.symm, hsame _ _ hA⟩
      · exact hI.silent hfds hzero hfree hsame
    · exact hI.silent hfds hzero hfree hsame
  | _ => cases hsend

theorem lifeEventsAt_outside (ho : opAt p.pool l = some o) (hfree : o.locksClients = false) :
    lifeEventsAt p l = o.lifeEvents (choiceOf l) := by
  rw [lifeEventsAt, ho]
  exact if_neg (by rw [hfree]; simp)

theorem lifeEventsAt_holder (ho : opAt p.pool l = some o) (hlocks : o.locksClients = true)
    (hh : p.holder = some h) : lifeEventsAt p l = h.lifeEvents p.pool.shared.clients o := by
  rw [lifeEventsAt, ho]
  simp only [hlocks, if_true, hh, Option.elim_some]

/-- A critical section that neither fills, names nor clears a slot ends without an event. -/
theorem holder_silent (hno : o.store ≠ some .clients ∨ ∃ sock, o = .clientAdd sock ∧
    h.started = false)
    (hdone : o.sends = true → cs[h.visited]? = none) : h.lifeEvents cs o = [] := by
  cases o with
  | broadcast pkt | unicastToKey key pkt => simp only [Holder.lifeEvents, hdone rfl]
  | clientAdd sock =>
    rcases hno with hno | ⟨_, -, hs⟩
    · exact absurd rfl hno
    · simp [Holder.lifeEvents, hs]
  | clientRegister sock key | clientRemove sock =>
    rcases hno with hno | ⟨_, he, -⟩
    · exact absurd rfl hno
    · cases he
  | _ => rfl

/-- A step without the mutex. -/
theorem lives_outside (hS : Seen p q) (hC : Connected q) (hI : Lives p hist)
    (ho : opAt p.pool (.run t c) = some o) (hfree : o.locksClients = false)
    (hq : server.next p.pool (.run t c) = some q') :
    Lives ⟨q', p.holder⟩ (hist ++ o.lifeEvents c) := by
  obtain ⟨th, a, r, hth, ha, hr, hthreads⟩ := server_run hq
  obtain rfl : a.op = o := Option.some.inj ((opAt_run hth ha).symm.trans ho)
  cases life_step ha hr with
  | quiet hclients hfds hfd hagrees hnew hev =>
    refine lives_quiet hth hthreads hI hclients hfds hfd hagrees hnew ?_
    rcases hev with h | ⟨x, hx, h, -⟩
    · exact .inl h
    · exact .inr ⟨x, hx, h⟩
  | accept x hop hx _ hth' h0 hfresh hs hnew =>
    have hev : a.op.lifeEvents c = [.accepted x] := by rw [hop, ← hx]; rfl
    rw [hev]
    exact lives_accept hthreads hI h0 hfresh hth' hnew hs
  | ask x key hop hreq hh hh' hagrees hs hnew =>
    have hev : a.op.lifeEvents c = [.asked x key] := by
      rw [hop]
      simp only [Op.lifeEvents, hreq]
    rw [hev]
    exact lives_ask hth hthreads hI hS hC hh hh' hagrees hs hnew
  | add x hop =>
    rw [hop] at hfree
    cases hfree
  | register x key rec hop =>
    rw [hop] at hfree
    cases hfree
  | remove x hop =>
    rw [hop] at hfree
    cases hfree
  | close x hop hx hth' hs hnew =>
    have hadd : th ≠ .main (.add x) := by
      rintro rfl
      cases ha
      cases hop
    have hev : a.op.lifeEvents c = [.closed x] := by rw [hop]; rfl
    rw [hev]
    exact lives_close hth hthreads hI hS hC hx.1 hx.2 hadd hth' hs hnew

/-- The end of a critical section. -/
theorem lives_unlock (hS : Seen p q) (hC : Connected q) (hL : Slotted q) (hI : Lives p hist)
    (ho : opAt p.pool (.run t c) = some o) (hlocks : o.locksClients = true)
    (hh : p.holder = some h) (ht : h.thread = t)
    (hadd : ∀ sock, o = .clientAdd sock → h.started = false ∧
      (c.ok = true → clientAdd p.pool.shared.clients sock = none))
    (hdone : o.sends = true → p.pool.shared.clients[h.visited]? = none)
    (hq : server.next p.pool (.run t c) = some q') :
    Lives ⟨q', none⟩ (hist ++ h.lifeEvents p.pool.shared.clients o) := by
  obtain ⟨th, a, r, hth, ha, hr, hthreads⟩ := server_run hq
  obtain rfl : a.op = o := Option.some.inj ((opAt_run hth ha).symm.trans ho)
  -- no slot is about to be filled
  have hidle : q = p.pool := by
    cases hS with
    | idle _ => rfl
    | started h' sock cs hh' hs hth' =>
      obtain rfl := Option.some.inj (hh.symm.trans hh')
      subst ht
      rw [opAt_add hth'] at ho
      rw [(hadd sock (Option.some.inj ho).symm).1] at hs
      cases hs
  subst hidle
  cases life_step ha hr with
  | quiet hclients hfds hfd hagrees hnew _ hno =>
    refine lives_quiet hth hthreads hI hclients hfds hfd hagrees hnew (.inl ?_)
    refine holder_silent ?_ hdone
    rcases hno with hno | ⟨sock, hop, -⟩
    · exact .inl hno
    · exact .inr ⟨sock, hop, (hadd sock hop).1⟩
  | accept x hop | ask x key hop | close x hop =>
    rw [hop] at hlocks
    cases hlocks
  | add x hop _ _ hcs =>
    rw [(hadd x hop).2 hcs.1] at hcs
    cases hcs.2
  | register x key rec hop hth₁ hth' hs hnew =>
    rw [hop]
    exact lives_register hth hthreads hI hC hL hth₁ hth' hs hnew
  | remove x hop hth₁ hth' hs hnew =>
    rw [hop]
    exact lives_remove hth hthreads hI hC hL hth₁ hth' hs hnew

/-- **What a step keeps.** -/
theorem lives_step (hS : Seen p q) (hC : Connected q) (hL : Slotted q) (hI : Lives p hist)
    (hn : lockServer.next p l = some p') : Lives p' (hist ++ lifeEventsAt p l) := by
  cases lock_step hn with
  | env e q' hq =>
    obtain rfl := Pool.next_env.1 hq
    exact hI.silent hI.fds hI.zero hI.free fun y life hA => ⟨hA.isOpen, hA.slot, hA.threads⟩
  | outside t c o q' ho hfree hq =>
    rw [lifeEventsAt_outside ho hfree]
    exact lives_outside hS hC hI ho hfree hq
  | lock t c o ho hlocks hnone =>
    have hev : lifeEventsAt p (.run t c) = [] := by
      rw [lifeEventsAt, ho]
      simp [hlocks, hnone]
    rw [hev]
    exact hI.silent hI.fds hI.zero hI.free fun y life hA => ⟨hA.isOpen, hA.slot, hA.threads⟩
  | visit c o h n ho hsend hh =>
    have hlocks : o.locksClients = true := by
      revert hsend
      cases o <;> simp [Op.sends, Op.locksClients]
    rw [lifeEventsAt_holder ho hlocks hh]
    exact lives_visit hI hsend rfl
  | start c sock h cs ho hh hs hok hcs =>
    obtain ⟨th, a, hth, ha, hop⟩ := thread_of_opAt ho
    obtain rfl := add_of_op ha hop
    rw [lifeEventsAt_holder ho rfl hh]
    simp only [Holder.lifeEvents, hs, Bool.false_eq_true, if_false]
    exact lives_start hI hth
  | fill c sock h cs ho hh hs hcs =>
    obtain ⟨th, a, hth, ha, hop⟩ := thread_of_opAt ho
    obtain rfl := add_of_op ha hop
    rw [lifeEventsAt_holder ho rfl hh]
    simp only [Holder.lifeEvents, hs, if_true]
    refine lives_fill hI hth hcs rfl ?_
    cases hS with
    | idle hidle =>
      rw [hidle h hh] at hs
      cases hs
    | started h' sock' cs' hh' _ hth' hcs' =>
      obtain rfl := Option.some.inj (hh.symm.trans hh')
      rw [hth] at hth'
      cases hth'
      obtain rfl := Option.some.inj (hcs.symm.trans hcs')
      exact hC
  | unlock c o h q' ho hlocks hh hadd hdone hq =>
    rw [lifeEventsAt_holder ho hlocks hh]
    exact lives_unlock hS hC hL hI ho hlocks hh rfl hadd hdone hq

theorem lives_boot (cwd : Dir) (files : Files) (users : UserDb) (clock : ℕ) :
    Lives ⟨boot cwd files users clock, none⟩ [] where
  fds := List.nodup_nil
  zero := List.not_mem_nil
  free := (connected_boot cwd files users clock).free
  life x := by
    refine ⟨.closed, rfl, ⟨iff_of_false List.not_mem_nil (by simp), fun h0 k => ?_, ?_⟩⟩
    · refine iff_of_false (fun hk => h0 ?_) (by simp)
      exact congrArg Client.sock (List.eq_of_mem_replicate hk)
    · intro u hu hx
      obtain rfl := List.mem_singleton.1 hu
      cases hx

/-- What is known of every state of a run. -/
theorem lives_run {cwd : Dir} {files : Files} {users : UserDb} {clock : ℕ}
    {w : LockServer × List TableEvent}
    (hr : lifeServer.Reach System.anyStep (⟨boot cwd files users clock, none⟩, []) w) :
    Lives w.1 w.2 ∧ ∃ q, Seen w.1 q ∧ Connected q := by
  have hinv : Lives w.1 w.2 ∧ ∃ q, Seen w.1 q ∧ Connected q ∧ Slotted q := by
    refine System.Reach.invariant (I := fun w => Lives w.1 w.2 ∧
      ∃ q, Seen w.1 q ∧ Connected q ∧ Slotted q) hr ?_ ?_
    · refine ⟨lives_boot cwd files users clock, _, .idle (by simp),
        connected_boot cwd files users clock, ?_⟩
      intro u hu x hx
      obtain rfl := List.mem_singleton.1 hu
      cases hx
    · rintro w l w' - ⟨hI, q, hS, hC, hL⟩ - hn
      obtain ⟨hn, hhist⟩ := System.withHistory_next.1 hn
      refine ⟨by rw [hhist]; exact lives_step hS hC hL hI hn, ?_⟩
      obtain ⟨q', hS', rfl | ⟨m, hm⟩⟩ := seen_step hS hn
      · exact ⟨q', hS', hC, hL⟩
      · exact ⟨q', hS', connected_step hC hm, slotted_step hC hL hm⟩
  obtain ⟨hI, q, hS, hC, -⟩ := hinv
  exact ⟨hI, q, hS, hC⟩

/-- **No packet reaches the wrong connection**, in whatever order the threads run and whichever
numbers `accept` returns. -/
theorem tableKept_run {cwd : Dir} {files : Files} {users : UserDb} {clock : ℕ}
    {w : LockServer × List TableEvent}
    (hr : lifeServer.Reach System.anyStep (⟨boot cwd files users clock, none⟩, []) w) :
    TableKept w.1 w.2 := by
  obtain ⟨hI, q, hS, hC⟩ := lives_run hr
  obtain ⟨hnodup, howner⟩ := seen_table hS hC hI
  refine ⟨fun x => ?_, hnodup, fun x hx => ?_⟩
  · obtain ⟨life, hlife, hA⟩ := hI.life x
    exact ⟨life, hlife, hA.isOpen, hA.slot⟩
  · obtain ⟨t, th, hth, hh, hone⟩ := howner x hx
    exact ⟨(hI.fd_open (List.mem_of_getElem? hth) (fd_of_handles hh)).2, t, th, hth, hh, hone⟩

/-- A connection is over before its slot is filled; its number is given to Alice, who asks for her
key before her slot is filled, and says something. -/
def reusedScript : List Label :=
  startUp ++ .run 0 { fd := 4 } :: steps 0 2 ++ steps 2 1 ++ steps 0 1 ++ steps 2 3 ++
    .run 0 { fd := 4 } :: steps 0 2 ++ receive 3 (.login (Key.ofBytes (utf8 "alice"))) ::
    steps 0 1 ++ steps 3 18 ++ receive 3 (.chat (utf8 "hello")) :: steps 3 12

/-- A run in which a number is used again. -/
theorem tableKept_alice : ∃ w, lifeServer.Reach System.anyStep (⟨freshBoot, none⟩, []) w ∧
    .closed 4 ∈ w.2 ∧ .published 4 ∈ w.2 ∧ TableKept w.1 w.2 := by
  obtain ⟨w, hw, hev⟩ := System.exists_reach_of_any (A := lifeServer) System.anyStep
    (⟨freshBoot, none⟩, []) reusedScript
    (fun w => w.2.contains (.closed 4) && w.2.contains (.published 4)) (by decide +kernel)
  rw [Bool.and_eq_true, List.contains_iff_mem, List.contains_iff_mem] at hev
  exact ⟨w, hw, hev.1, hev.2, tableKept_run hw⟩

end UnderFlow
