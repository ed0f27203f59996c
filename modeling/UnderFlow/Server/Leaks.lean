import UnderFlow.Server.FrozenTrade

/-!
# Public leaks

* `LeakHeld` : the tag of a leak stays frozen for the announced time, unless the round is reset.
* `LeakGuard` : a tag is frozen only while no other leak of that tag is outstanding.
* `leakHeld_of_guard` : then `LeakHeld` holds in every state of a run.
* `not_leakHeld` : the timer of one leak ends another leak of the same tag.
-/

namespace UnderFlow

variable {s s' : Shared} {c : Choice} {th th' u : Thread} {a : Action Thread} {p p' : Server}
  {t : ℕ} {mask m : Tags} {dur start : ℕ} {sock : ℕ} {key : Key}

/-! ### Leaks and their tags -/

/-- What happens to leaks; calls of `fire_public_leak` are told apart by their threads. -/
inductive LeakEvent where
  /-- The call of a thread freezes the tags, at a time and for a duration. -/
  | froze (t : ℕ) (mask : Tags) (start dur : ℕ)
  /-- The call returns 1. -/
  | fired (t : ℕ)
  /-- The call takes the tags back and returns 0. -/
  | gaveUp (t : ℕ)
  | reset
  deriving DecidableEq

/-- The event ends a call of the thread. -/
def LeakEvent.ends (t : ℕ) : LeakEvent → Bool
  | .fired u | .gaveUp u => u == t
  | _ => false

/-- The point of `fire_public_leak` a thread is at. -/
def Thread.leak : Thread → Option Leak
  | .session _ _ (.leak pc) | .event _ (.leak pc) => some pc
  | _ => none

/-- The next action of the thread empties the market. -/
def Thread.clears : Thread → Bool
  | .main .marketInit | .roundEndTimer (.reset .market) => true
  | _ => false

/-- What the next action of a call reports. -/
def Leak.events (clock : ℕ) (ok : Bool) (t : ℕ) : Leak → List LeakEvent
  | .freeze mask dur => [.froze t mask clock dur]
  | .thread _ _ => if ok then [.fired t] else []
  | .unfreeze _ => [.gaveUp t]
  | _ => []

/-- What a step of the thread adds to the history. -/
def Thread.leakEvents (clock : ℕ) (ok : Bool) (t : ℕ) (th : Thread) : List LeakEvent :=
  if th.clears then [.reset] else th.leak.elim [] (Leak.events clock ok t)

/-- What a step adds to the history. -/
def leakEventsAt (p : Server) : Label → List LeakEvent
  | .run t c => (p.threads[t]?).elim [] (Thread.leakEvents p.shared.clock c.ok t)
  | .env _ => []

/-- The server with a record of its leaks. -/
def leakServer : System (Server × List LeakEvent) Label := server.withHistory leakEventsAt

/-- The tags that a call has frozen are in the mask for the duration of the leak, unless the market
was emptied since or the call has given up. -/
def LeakHeld (p : Server) (hist : List LeakEvent) : Prop :=
  ∀ before t mask start dur after, hist = before ++ .froze t mask start dur :: after →
    .reset ∉ after → after.find? (·.ends t) ≠ some (.gaveUp t) → p.shared.clock < start + dur →
    mask &&& p.shared.market.frozenTags = mask

/-! ### When it holds -/

/-- The tags a call has frozen. -/
def Leak.owes : Leak → Option Tags
  | .headline mask _ | .announce mask _ _ | .malloc mask _ | .thread mask _ | .unfreeze mask =>
    some mask
  | _ => none

/-- The tags a thread is going to take out of the mask. -/
def Thread.owes : Thread → Option Tags
  | .session _ _ (.leak pc) | .event _ (.leak pc) => pc.owes
  | .leakRecovery _ _ .announce => none
  | .leakRecovery mask _ _ => some mask
  | _ => none

/-- Tags are frozen only while no thread is going to take one of them out of the mask. -/
structure LeakGuard (p : Server) (l : Label) : Prop where
  alone : ∀ o ∈ opAt p l, ∀ u ∈ p.threads, (u.owes.any fun tags => o.freezes tags) = false

instance (p : Server) (l : Label) : Decidable (LeakGuard p l) :=
  decidable_of_iff _ ⟨fun h => ⟨h⟩, fun h => h.alone⟩

/-! ### Who works on the mask -/

theorem meets_comm (m₁ m₂ : Tags) : m₁.meets m₂ = m₂.meets m₁ := by
  rw [Tags.meets, Tags.meets, BitVec.and_comm]

/-- The operations that change the mask, or start the timer of a leak. -/
def Op.onLeaks : Op → Bool
  | .freezeTags _ | .unfreezeTags _ | .marketInit | .pthreadCreate (.leakRecovery _ _) => true
  | _ => false

theorem purgeDocsIn_onLeaks (f : Folder) (pc : Purge) : (purgeDocsIn f pc).op.onLeaks = false := by
  cases pc <;> rfl

theorem seedMarketAndNpc_onLeaks (pc : Seed) : (seedMarketAndNpc pc).op.onLeaks = false := by
  cases pc <;> rfl

theorem fireRoundEndCountdown_onLeaks (text : Bytes) (pc : RoundEnd) :
    (fireRoundEndCountdown text pc).op.onLeaks = false := by
  cases pc <;> rfl

theorem burnUserByKey_onLeaks (pc : Burn) : (burnUserByKey key pc).op.onLeaks = false := by
  cases pc with
  | purge q => exact purgeDocsIn_onLeaks _ q
  | _ => rfl

theorem sandboxList_onLeaks (pc : SandboxList) : (sandboxList key pc).op.onLeaks = false := by
  cases pc <;> rfl

theorem handleInventory_onLeaks (pc : Inventory) :
    (handleInventory sock key pc).op.onLeaks = false := by
  cases pc with
  | list q => exact sandboxList_onLeaks q
  | _ => rfl

/-- A command other than a leak does not work on the mask. -/
theorem clientLoop_onLeaks {pc : Command} (h : ∀ q, pc ≠ .leak q) :
    (clientLoop sock key pc).op.onLeaks = false := by
  cases pc with
  | leak q => exact absurd rfl (h q)
  | bankruptcy q => cases q <;> rfl
  | buy d q => cases q <;> rfl
  | sell n ds q => cases q <;> rfl
  | dispose d q => cases q <;> rfl
  | inventory q => exact handleInventory_onLeaks q
  | rumor k q =>
    cases q with
    | inventory q => exact handleInventory_onLeaks q
    | _ => rfl
  | payoff q =>
    cases q with
    | purge e rec off q => exact purgeDocsIn_onLeaks _ q
    | roundEnd q => exact fireRoundEndCountdown_onLeaks _ q
    | _ => rfl
  | minigame code q =>
    cases q with
    | burn serial q => exact burnUserByKey_onLeaks q
    | _ => rfl
  | selfRaid q => cases q <;> rfl
  | fakeRich q =>
    cases q with
    | list rec q => exact sandboxList_onLeaks q
    | _ => rfl
  | endround q => exact fireRoundEndCountdown_onLeaks _ q
  | _ => rfl

theorem eventThreadFunc_onLeaks {v : EventVars} {pc : Event} (h : ∀ q, pc ≠ .leak q) :
    (eventThreadFunc v pc).op.onLeaks = false := by
  cases pc with
  | leak q => exact absurd rfl (h q)
  | roundEnd q => exact fireRoundEndCountdown_onLeaks _ q
  | ageNpcs q => cases q <;> rfl
  | ageMarket q => cases q <;> rfl
  | raid q => cases q <;> rfl
  | spawn q => cases q <;> rfl
  | _ => rfl

theorem triggerRoundReset_onLeaks {pc : Reset} (h : pc ≠ .market) :
    (triggerRoundReset pc).op.onLeaks = false := by
  cases pc with
  | market => exact absurd rfl h
  | masterPurge q => exact purgeDocsIn_onLeaks _ q
  | userPurge name todo q => exact purgeDocsIn_onLeaks _ q
  | seed q => exact seedMarketAndNpc_onLeaks q
  | _ => rfl

/-- **Who works on the mask**: leaks, their timers, and the resets. -/
theorem onLeaks_action (ha : th.action = some a) (h : a.op.onLeaks = true) :
    (∃ pc, th.leak = some pc) ∨ (∃ mask dur, th = .leakRecovery mask dur .unfreeze) ∨
      (th.clears = true ∧ a.op = .marketInit) := by
  have hno : ∀ {β : Type} {b : Action β} {P : Prop}, b.op.onLeaks = false →
      b.op.onLeaks = true → P := fun h₁ h₂ => nomatch h₁.symm.trans h₂
  cases th with
  | session sock key pc =>
    cases ha
    by_cases hpc : ∃ q, pc = .leak q
    · obtain ⟨q, rfl⟩ := hpc
      exact .inl ⟨q, rfl⟩
    · rw [not_exists] at hpc
      exact hno (clientLoop_onLeaks hpc) h
  | event v pc =>
    cases ha
    by_cases hpc : ∃ q, pc = .leak q
    · obtain ⟨q, rfl⟩ := hpc
      exact .inl ⟨q, rfl⟩
    · rw [not_exists] at hpc
      exact hno (eventThreadFunc_onLeaks hpc) h
  | main pc =>
    cases ha
    cases pc with
    | marketInit => exact .inr (.inr ⟨rfl, rfl⟩)
    | seed q =>
      exact hno (seedMarketAndNpc_onLeaks q) h
    | _ => cases h
  | leakRecovery mask dur pc =>
    cases ha
    cases pc with
    | unfreeze => exact .inr (.inl ⟨mask, dur, rfl⟩)
    | _ => cases h
  | roundEndTimer pc =>
    cases ha
    cases pc with
    | reset q =>
      by_cases hq : q = .market
      · subst hq
        exact .inr (.inr ⟨rfl, rfl⟩)
      · exact hno (triggerRoundReset_onLeaks hq) h
    | _ => cases h
  | login sock pc =>
    cases ha
    cases pc <;> cases h
  | disconnect sock pc =>
    cases ha
    cases pc <;> cases h
  | npcSequence pc =>
    cases ha
    cases pc <;> cases h
  | raidTimeout serial pc =>
    cases ha
    cases pc with
    | burn k todo q =>
      exact hno (burnUserByKey_onLeaks q) h
    | _ => cases h
  | finished => cases ha

/-! ### Steps -/

/-- The step of a thread inside a leak is the step of the leak. -/
theorem leak_action {pc : Leak} (hpc : th.leak = some pc) (ha : th.action = some a) :
    ∃ f : Next Leak Bool → Thread, a = (firePublicLeak pc).map f ∧
      (∀ pc', (f (.cont pc')).leak = some pc' ∧ (f (.cont pc')).owes = pc'.owes) ∧
      ∀ b, (f (.ret b)).owes = none := by
  cases th with
  | session sock key q =>
    cases q with
    | leak q =>
      cases hpc
      simp only [Thread.action, clientLoop, Action.map_map, Option.some.injEq] at ha
      refine ⟨_, ha.symm, fun pc' => ⟨rfl, rfl⟩, fun b => ?_⟩
      cases b <;> rfl
    | _ => cases hpc
  | event v q =>
    cases q with
    | leak q =>
      cases hpc
      simp only [Thread.action, eventThreadFunc, Action.map_map, Option.some.injEq] at ha
      exact ⟨_, ha.symm, fun pc' => ⟨rfl, rfl⟩, fun b => rfl⟩
    | _ => cases hpc
  | _ => cases hpc

theorem owes_of_leak {pc : Leak} (h : th.leak = some pc) : th.owes = pc.owes := by
  cases th with
  | session sock key q => cases q <;> cases h; rfl
  | event v q => cases q <;> cases h; rfl
  | _ => cases h

/-- What a thread owes after a step, it owed before, or it has just frozen it. -/
theorem owed_step (ha : th.action = some a) {r : a.op.Ret} (hr : a.op.exec s c = some (s', r))
    (h : (a.next r).owes = some m) : th.owes = some m ∨ a.op = .freezeTags m := by
  have ho := thread_origin ha ⟨r, hr, rfl⟩
  generalize hnext : a.next r = th' at h ho
  -- a leak that goes on
  have hleak : ∀ {pc pc' : Leak}, th.leak = some pc →
      (firePublicLeak pc).Steps s c s' (.cont pc') → pc'.owes = some m →
      th.owes = some m ∨ a.op = .freezeTags m := by
    intro pc pc' hpc hs hm
    rw [owes_of_leak hpc]
    obtain ⟨f, rfl, -⟩ := leak_action hpc ha
    obtain ⟨r', -, hn⟩ := hs
    cases pc with
    | freeze mask dur =>
      cases hn
      cases hm
      exact .inr rfl
    | headline mask dur | announce mask dur text =>
      cases hn
      exact .inl hm
    | malloc mask dur | thread mask dur =>
      cases r' <;> cases hn <;> exact .inl hm
    | present frozen =>
      simp only [firePublicLeak] at hn
      split at hn <;> cases hn
      cases hm
    | _ => cases hn <;> cases hm
  cases th' with
  | session sock key pc' =>
    cases pc' with
    | leak q' =>
      obtain ⟨pc, rfl, hs⟩ | ⟨he, -⟩ := ho
      · rcases session_origin hs with ⟨rfl, -⟩ | ⟨q, rfl, hq⟩
        · cases h
        · exact hleak rfl hq h
      · cases he
    | _ => cases h
  | event v pc' =>
    cases pc' with
    | leak q' =>
      obtain ⟨v₀, pc, rfl, hs⟩ := ho
      rcases event_origin hs with rfl | ⟨q, rfl, hq⟩
      · cases h
      · exact hleak rfl hq h
    | _ => cases h
  | leakRecovery mask dur pc' =>
    obtain ⟨pc, rfl, hs⟩ := ho
    obtain ⟨r', -, hn⟩ := hs
    cases pc <;> cases hn <;> first | exact .inl h | cases h
  | _ => cases h

/-- What a new thread owes, its starter owed. -/
theorem owed_new (ha : th.action = some a) {r : a.op.Ret} (hu : u ∈ a.op.spawned r)
    (h : u.owes = some m) : th.owes = some m := by
  obtain ⟨op, next⟩ := a
  cases op with
  | pthreadCreate n =>
    simp only [Op.spawned] at hu
    split_ifs at hu
    · obtain rfl := List.mem_singleton.1 hu
      cases n with
      | leakRecovery mask dur =>
        cases h
        obtain ⟨pc, hpc⟩ | ⟨_, _, rfl⟩ | ⟨-, hop⟩ := onLeaks_action ha rfl
        · obtain ⟨f, hf, -⟩ := leak_action hpc ha
          rw [owes_of_leak hpc]
          cases pc <;> cases hf
          rfl
        · cases ha
        · cases hop
      | _ => cases h
    · cases hu
  | clientAdd sock =>
    simp only [Op.spawned] at hu
    split_ifs at hu
    · obtain rfl := List.mem_singleton.1 hu
      cases h
    · cases hu
  | _ => cases hu

/-- What an operation does to the mask. -/
theorem frozen_step {o : Op} {r : o.Ret} (hr : o.exec s c = some (s', r)) :
    s'.market.frozenTags = s.market.frozenTags ∨
    (∃ new, o = .freezeTags new ∧ s'.market.frozenTags = s.market.frozenTags ||| new) ∨
    (∃ old, o = .unfreezeTags old ∧ s'.market.frozenTags = s.market.frozenTags &&& ~~~old) ∨
    o = .marketInit := by
  by_cases hm : o.store = some .market
  · cases o with
    | freezeTags new =>
      cases hr
      exact .inr (.inl ⟨new, rfl, rfl⟩)
    | unfreezeTags old =>
      cases hr
      exact .inr (.inr (.inl ⟨old, rfl, rfl⟩))
    | marketInit => exact .inr (.inr (.inr rfl))
    | marketTake d =>
      cases hr
      rcases marketTake_cases s.market d with ⟨e, he⟩ | ⟨slot, slots, -, -, he⟩ <;>
        exact .inl (by rw [he])
    | marketAdd d tags price name =>
      obtain ⟨rfl, -⟩ | ⟨-, m, rfl, hm⟩ := exec_marketAdd hr
      · exact .inl rfl
      · let doc : DocFile := ⟨d, tags, price, name⟩
        have hadd : marketAdd s.market s.clock (c.rand.getD 0 0) doc.docId doc.tags doc.basePrice
            doc.name = some m := hm
        obtain ⟨slot, new, -, hmask, -⟩ := marketAdd_eq_some hadd
        exact .inl hmask
    | marketDespawnAged =>
      cases hr
      exact .inl rfl
    | _ => cases hm
  · rw [(exec_frame hr).market hm]
    exact .inl rfl

/-! ### The invariant -/

/-- The thread will not give the tags back before `stop`. -/
def Thread.Times (mask : Tags) (dur stop : ℕ) (th : Thread) : Prop :=
  th = .leakRecovery mask dur .start ∨ ∃ wake, stop ≤ wake ∧
    th = .leakRecovery mask dur (.sleep wake)

/-- The call has frozen the tags for the duration. -/
def Leak.Holds (mask : Tags) (dur : ℕ) : Leak → Prop
  | .headline m d | .announce m d _ | .malloc m d | .thread m d => m = mask ∧ d = dur
  | .unfreeze m => m = mask
  | _ => False

/-- The thread keeps the tags frozen: the call of thread `t`, while it runs, and then its timer. -/
def Thread.Keeps (t : ℕ) (mask : Tags) (dur stop : ℕ) (ended : Option LeakEvent) (j : ℕ)
    (th : Thread) : Prop :=
  (ended = none ∧ j = t ∧ ∃ pc, th.leak = some pc ∧ pc.Holds mask dur) ∨
    (ended = some (.fired t) ∧ th.Times mask dur stop)

/-- The tags are frozen, one thread keeps them, and no other thread owes any of them. -/
structure Standing (p : Server) (t : ℕ) (mask : Tags) (start dur : ℕ) (ended : Option LeakEvent) :
    Prop where
  frozen : mask &&& p.shared.market.frozenTags = mask
  past : start ≤ p.shared.clock
  kept : ∃ j u, p.threads[j]? = some u ∧ u.Keeps t mask dur (start + dur) ended j ∧
    ∀ (i : ℕ) (v : Thread) (m : Tags), i ≠ j → p.threads[i]? = some v → v.owes = some m →
      m.meets mask = false

/-- The invariant of guarded runs. -/
def LeakInv (p : Server) (hist : List LeakEvent) : Prop :=
  ∀ before t mask start dur after, hist = before ++ .froze t mask start dur :: after →
    .reset ∉ after → after.find? (·.ends t) ≠ some (.gaveUp t) → p.shared.clock < start + dur →
    Standing p t mask start dur (after.find? (·.ends t))

theorem owes_of_keeps {ended : Option LeakEvent} {stop j : ℕ}
    (h : u.Keeps t mask dur stop ended j) : u.owes = some mask := by
  rcases h with ⟨-, -, pc, hpc, hh⟩ | ⟨-, rfl | ⟨wake, -, rfl⟩⟩
  · rw [owes_of_leak hpc]
    cases pc <;> simp_all [Leak.Holds, Leak.owes]
  · rfl
  · rfl

/-- Tags stay in the mask over a step that gives none of them back. -/
theorem frozen_kept {o : Op} {r : o.Ret} (hr : o.exec s c = some (s', r))
    (h : mask &&& s.market.frozenTags = mask) (hinit : o ≠ .marketInit)
    (hold : ∀ old, o = .unfreezeTags old → old.meets mask = false) :
    mask &&& s'.market.frozenTags = mask := by
  rcases frozen_step hr with he | ⟨new, -, he⟩ | ⟨old, ho, he⟩ | ho
  · rwa [he]
  · rw [he, BitVec.and_or_distrib_left, h]
    ext i hi
    simp
    grind
  · have hno := hold old ho
    rw [meets_comm, meets_eq_false] at hno
    rw [he, ← BitVec.and_assoc, h]
    ext i hi
    have hi' : (mask &&& old)[i] = (0#32)[i] := by rw [hno]
    simp at hi' ⊢
    grind
  · exact absurd ho hinit

/-- The events of a step end a call of their own thread only. -/
theorem ends_leakEvents {clock j : ℕ} {ok : Bool} (hj : j ≠ t) :
    (th.leakEvents clock ok t).find? (·.ends j) = none := by
  rw [List.find?_eq_none]
  intro e he
  simp only [Thread.leakEvents] at he
  split_ifs at he
  · simp_all [LeakEvent.ends]
  · cases hpc : th.leak with
    | none => simp [hpc] at he
    | some pc =>
      rw [hpc] at he
      cases pc <;> simp only [Option.elim, Leak.events, List.not_mem_nil, List.mem_singleton] at he
      · simp [he, LeakEvent.ends]
      · split_ifs at he
        · rw [List.mem_singleton.1 he]
          simpa [LeakEvent.ends] using Ne.symm hj
        · cases he
      · simpa [he, LeakEvent.ends] using Ne.symm hj

theorem leakEvents_of_leak {pc : Leak} {clock : ℕ} {ok : Bool} (h : th.leak = some pc) :
    th.leakEvents clock ok t = pc.events clock ok t := by
  have hc : th.clears = false := by
    cases th with
    | main q => cases h
    | roundEndTimer q => cases h
    | _ => rfl
  simp [Thread.leakEvents, hc, h]

/-- A freeze is reported by a call that executes it. -/
theorem froze_of_leakEvents {clock start j : ℕ} {ok : Bool} {pre post : List LeakEvent}
    (h : th.leakEvents clock ok t = pre ++ .froze j mask start dur :: post) :
    th.leak = some (.freeze mask dur) ∧ j = t ∧ start = clock ∧ pre = [] ∧ post = [] := by
  simp only [Thread.leakEvents] at h
  split_ifs at h
  · cases pre <;> simp at h
  · cases hpc : th.leak with
    | none => simp [hpc] at h
    | some pc =>
      rw [hpc] at h
      cases pc <;> simp only [Option.elim, Leak.events] at h
      case freeze m d => cases pre <;> simp_all
      case thread m d =>
        split_ifs at h
        · cases pre <;> simp at h
        · simp at h
      all_goals cases pre <;> simp at h

/-- **The step of the thread that keeps the tags.** -/
theorem keeps_own {ended : Option LeakEvent} {j : ℕ} (ha : th.action = some a) {r : a.op.Ret}
    (hr : a.op.exec s c = some (s', r)) (hk : th.Keeps t mask dur (start + dur) ended j)
    (hpast : start ≤ s.clock) (hclock : s.clock < start + dur)
    (hup : ended.or ((th.leakEvents s.clock c.ok j).find? (·.ends t)) ≠ some (.gaveUp t)) :
    (∀ old, a.op ≠ .unfreezeTags old) ∧
      ((a.next r).Keeps t mask dur (start + dur)
          (ended.or ((th.leakEvents s.clock c.ok j).find? (·.ends t))) j ∧ a.op.spawned r = [] ∨
        (a.next r).owes = none ∧ ∃ v, a.op.spawned r = [v] ∧ ∀ i, v.Keeps t mask dur (start + dur)
          (ended.or ((th.leakEvents s.clock c.ok j).find? (·.ends t))) i) := by
  rcases hk with ⟨rfl, rfl, pc, hpc, hh⟩ | ⟨rfl, rfl | ⟨wake, hwake, rfl⟩⟩
  · obtain ⟨f, rfl, hcont, hret⟩ := leak_action hpc ha
    rw [leakEvents_of_leak hpc] at hup ⊢
    have hgo : ∀ pc', pc'.Holds mask dur →
        (f (.cont pc')).Keeps j mask dur (start + dur) none j :=
      fun pc' hh' => .inl ⟨rfl, rfl, pc', (hcont pc').1, hh'⟩
    cases pc with
    | headline m d => exact ⟨(by rintro _ ⟨⟩), .inl ⟨hgo _ hh, rfl⟩⟩
    | announce m d text => exact ⟨(by rintro _ ⟨⟩), .inl ⟨hgo _ hh, rfl⟩⟩
    | malloc m d =>
      refine ⟨(by rintro _ ⟨⟩), .inl ⟨?_, rfl⟩⟩
      cases r
      · exact hgo (.unfreeze m) hh.1
      · exact hgo (.thread m d) hh
    | thread m d =>
      obtain ⟨rfl, rfl⟩ := hh
      refine ⟨(by rintro _ ⟨⟩), ?_⟩
      simp only [Action.map, firePublicLeak, Op.exec, Option.some.injEq] at hr
      cases hr
      cases hok : c.ok
      · exact .inl ⟨
          by simpa [Action.map, firePublicLeak, hok, Leak.events] using hgo (.unfreeze m) rfl,
          by simp [Action.map, firePublicLeak, Op.spawned]⟩
      · refine .inr ⟨by simpa [Action.map, firePublicLeak, hok] using hret true,
          .leakRecovery m d .start, by simp [Action.map, firePublicLeak, Op.spawned,
            NewThread.start], fun i => .inr ⟨?_, .inl rfl⟩⟩
        simp [Leak.events, LeakEvent.ends]
    | unfreeze m =>
      refine absurd ?_ hup
      simp [Leak.events, LeakEvent.ends]
    | _ => exact hh.elim
  · cases ha
    cases hr
    refine ⟨(by rintro _ ⟨⟩), .inl ⟨.inr ⟨rfl, .inr ⟨s.clock + dur, by omega, rfl⟩⟩, rfl⟩⟩
  · cases ha
    simp only [Action.map, leakRecoveryThread, Op.exec] at hr
    split_ifs at hr with hle
    omega

/-- **A standing leak** over the step of a thread. -/
theorem standing_step {start : ℕ} {ended : Option LeakEvent} {i : ℕ}
    (hG : LeakGuard p (.run i c)) (hth : p.threads[i]? = some th) (ha : th.action = some a)
    {r : a.op.Ret} (hr : a.op.exec p.shared c = some (p'.shared, r))
    (hthreads : p'.threads = p.threads.set i (a.next r) ++ a.op.spawned r)
    (hS : Standing p t mask start dur ended) (hclock : p.shared.clock < start + dur)
    (hclear : a.op ≠ .marketInit)
    (hup : ended.or ((th.leakEvents p.shared.clock c.ok i).find? (·.ends t)) ≠ some (.gaveUp t)) :
    Standing p' t mask start dur
      (ended.or ((th.leakEvents p.shared.clock c.ok i).find? (·.ends t))) := by
  obtain ⟨j, u, hu, hk, hrest⟩ := hS.kept
  have howes := owes_of_keeps hk
  -- what the thread or a new thread owes beside the tags
  have hfresh : ∀ m, a.op = .freezeTags m → m.meets mask = false := by
    intro m hop
    have := hG.alone a.op (opAt_run hth ha) u (List.mem_of_getElem? hu)
    rw [howes, hop] at this
    rw [meets_comm]
    exact this
  have hnew : i ≠ j → ∀ m, (a.next r).owes = some m ∨ (∃ v ∈ a.op.spawned r, v.owes = some m) →
      m.meets mask = false := by
    rintro hij m (hm | ⟨v, hv, hm⟩)
    · rcases owed_step ha hr hm with hold | hop
      · exact hrest i th m hij hth hold
      · exact hfresh m hop
    · exact hrest i th m hij hth (owed_new ha hv hm)
  have hpast : start ≤ p'.shared.clock := by
    rw [(exec_frame hr).clock]
    exact hS.past
  by_cases hij : i = j
  · subst hij
    rw [hth] at hu
    cases hu
    obtain ⟨hno, hkeep⟩ := keeps_own ha hr hk hS.past hclock hup
    refine ⟨frozen_kept hr hS.frozen hclear fun old hop => absurd hop (hno old), hpast, ?_⟩
    rcases hkeep with ⟨hkeep, hnil⟩ | ⟨hnone, v, hv, hkeep⟩
    · refine ⟨i, a.next r, ?_, hkeep, fun k w m hki hw hm => ?_⟩
      · rw [hthreads]
        exact Pool.getElem?_step_self hth
      · rw [hthreads, hnil] at hw
        rcases Pool.getElem?_step hw with ⟨-, hw⟩ | ⟨rfl, -⟩ | hw
        · exact hrest k w m hki hw hm
        · exact absurd rfl hki
        · cases hw
    · -- the timer takes over
      have hlen : p'.threads[(p.threads.set i (a.next r)).length]? = some v := by
        rw [hthreads, hv, List.getElem?_append_right (le_refl _)]
        simp
      refine ⟨_, v, hlen, hkeep _, fun k w m hk hw hm => ?_⟩
      rw [hthreads, hv] at hw
      by_cases hki : k = i
      · subst hki
        rw [Pool.getElem?_step_self hth] at hw
        cases hw
        rw [hnone] at hm
        cases hm
      · rcases Pool.getElem?_step hw with ⟨-, hw'⟩ | ⟨hk, -⟩ | hw'
        · exact hrest k w m hki hw' hm
        · exact absurd hk hki
        · have hlt := (List.getElem?_eq_some_iff.1 hw).1
          rw [List.length_append, List.length_singleton] at hlt
          by_cases hold : k < (p.threads.set i (a.next r)).length
          · rw [List.getElem?_append_left hold, List.getElem?_set_ne (Ne.symm hki)] at hw
            exact hrest k w m hki hw hm
          · omega
  · have hends : ended.or ((th.leakEvents p.shared.clock c.ok i).find? (·.ends t)) = ended := by
      rcases hk with ⟨rfl, rfl, -⟩ | ⟨rfl, -⟩
      · rw [ends_leakEvents (Ne.symm hij)]
        rfl
      · rfl
    rw [hends]
    refine ⟨frozen_kept hr hS.frozen hclear fun old hop => ?_, hpast, j, u, ?_, hk,
      fun k w m hkj hw hm => ?_⟩
    · refine hrest i th old hij hth ?_
      obtain ⟨pc, hpc⟩ | ⟨m, d, rfl⟩ | ⟨-, hinit⟩ := onLeaks_action ha (by rw [hop]; rfl)
      · obtain ⟨f, rfl, -⟩ := leak_action hpc ha
        rw [owes_of_leak hpc]
        cases pc <;> cases hop
        rfl
      · cases ha
        cases hop
        rfl
      · exact absurd hinit hclear
    · rw [hthreads]
      exact Pool.getElem?_step_of_ne (Ne.symm hij) hu
    · rw [hthreads] at hw
      rcases Pool.getElem?_step hw with ⟨-, hw⟩ | ⟨-, rfl⟩ | hw
      · exact hrest k w m hkj hw hm
      · exact hnew hij m (.inl hm)
      · exact hnew hij m (.inr ⟨w, hw, hm⟩)

/-- **A leak that has just frozen its tags.** -/
theorem standing_new {i : ℕ} (hG : LeakGuard p (.run i c)) (hth : p.threads[i]? = some th)
    (ha : th.action = some a) {r : a.op.Ret} (hr : a.op.exec p.shared c = some (p'.shared, r))
    (hthreads : p'.threads = p.threads.set i (a.next r) ++ a.op.spawned r)
    (hpc : th.leak = some (.freeze mask dur)) :
    Standing p' i mask p.shared.clock dur none := by
  obtain ⟨f, rfl, hcont, -⟩ := leak_action hpc ha
  have halone := hG.alone _ (opAt_run hth ha)
  have hs := congrArg (fun x => x.map Prod.fst) hr
  simp only [Action.map, firePublicLeak, Op.exec, Option.map_some, Option.some.injEq] at hs
  refine ⟨?_, by rw [← hs], i, f (.cont (.headline mask dur)), ?_, ?_, fun k w m hki hw hm => ?_⟩
  · rw [← hs]
    show mask &&& (p.shared.market.frozenTags ||| mask) = mask
    ext b hb
    simp
    grind
  · rw [hthreads]
    exact Pool.getElem?_step_self hth
  · exact .inl ⟨rfl, rfl, _, (hcont _).1, rfl, rfl⟩
  · rw [hthreads] at hw
    rcases Pool.getElem?_step hw with ⟨-, hw⟩ | ⟨rfl, -⟩ | hw
    · have := halone w (List.mem_of_getElem? hw)
      rw [hm] at this
      exact this
    · exact absurd rfl hki
    · cases hw

theorem leakInv_step {hist : List LeakEvent} {l : Label} (hI : LeakInv p hist)
    (hG : LeakGuard p l) (h : server.next p l = some p') :
    LeakInv p' (hist ++ leakEventsAt p l) := by
  intro before t mask start dur after heq hreset hup hclock
  cases l with
  | env e =>
    obtain rfl := Pool.next_env.1 h
    rw [leakEventsAt, List.append_nil] at heq
    have hle : p.shared.clock ≤ p.shared.clock + e := Nat.le_add_right _ _
    have hS := hI before t mask start dur after heq hreset hup (lt_of_le_of_lt hle hclock)
    exact ⟨hS.frozen, le_trans hS.past hle, hS.kept⟩
  | run i c =>
    obtain ⟨th, a, r, hth, ha, hr, hthreads⟩ := server_run h
    have hev : leakEventsAt p (.run i c) = th.leakEvents p.shared.clock c.ok i := by
      simp [leakEventsAt, hth]
    rw [hev] at heq
    rw [(exec_frame hr).clock] at hclock
    rcases List.append_eq_append_iff.1 heq with ⟨pre, rfl, hpre⟩ | ⟨mid, hmid, hafter⟩
    · obtain ⟨hpc, rfl, rfl, rfl, rfl⟩ := froze_of_leakEvents hpre
      exact standing_new hG hth ha hr hthreads hpc
    · cases mid with
      | nil =>
        obtain ⟨hpc, rfl, rfl, -, rfl⟩ :=
          froze_of_leakEvents (hafter.symm.trans (List.nil_append _).symm)
        exact standing_new hG hth ha hr hthreads hpc
      | cons e mid =>
        rw [List.cons_append, List.cons.injEq] at hafter
        obtain ⟨rfl, rfl⟩ := hafter
        rw [List.mem_append, not_or] at hreset
        rw [List.find?_append] at hup ⊢
        have hup' : mid.find? (·.ends t) ≠ some (.gaveUp t) := fun he => hup (by rw [he]; rfl)
        refine standing_step hG hth ha hr hthreads
          (hI before t mask start dur mid hmid hreset.1 hup'
          hclock) hclock (fun hop => hreset.2 ?_) hup
        obtain ⟨pc, hpc⟩ | ⟨m, d, rfl⟩ | ⟨hc, -⟩ := onLeaks_action ha (by rw [hop]; rfl)
        · obtain ⟨f, rfl, -⟩ := leak_action hpc ha
          cases pc <;> cases hop
        · cases ha
          cases hop
        · simp [Thread.leakEvents, hc]

theorem leakInv_boot (cwd : Dir) (files : Files) (users : UserDb) (clock : ℕ) :
    LeakInv (boot cwd files users clock) [] :=
  fun _ _ _ _ _ _ h => absurd h (by simp)

/-! ### Tags stay frozen -/

/-- **A leak keeps its tag frozen** for the announced time in guarded runs. -/
theorem leakHeld_of_guard {cwd : Dir} {files : Files} {users : UserDb} {clock : ℕ}
    {q : Server × List LeakEvent}
    (hq : leakServer.Reach (fun q l => LeakGuard q.1 l) (boot cwd files users clock, []) q) :
    LeakHeld q.1 q.2 := by
  have hI : LeakInv q.1 q.2 := hq.invariant (I := fun q => LeakInv q.1 q.2)
    (leakInv_boot cwd files users clock) fun q l q' _ hI hG hn => by
      obtain ⟨hn, hhist⟩ := System.withHistory_next.1 hn
      rw [hhist]
      exact leakInv_step hI hG hn
  intro before t mask start dur after heq hreset hup hclock
  exact (hI before t mask start dur after heq hreset hup hclock).frozen

/-- Alice fires a leak of the military tag for 180 seconds; 100 of them pass. -/
def leakScript : List Label :=
  startUp ++ connect 5 ++ logIn 2 (Key.ofBytes (utf8 "alice")) ++ receive 2 .triggerLeak ::
    steps 2 2 ++ .run 2 { rand := [4] } :: steps 2 5 ++ steps 3 1 ++ [.env 100]

/-- Alice and Bob pick the same tag, for 180 and for 300 seconds; after 180 seconds the timer of
Alice's leak goes off. -/
def twoLeaksScript : List Label :=
  startUp ++ connect 5 ++ connect 6 ++ logIn 2 (Key.ofBytes (utf8 "alice")) ++
    logIn 3 (Key.ofBytes (utf8 "bob")) ++ receive 2 .triggerLeak :: receive 3 .triggerLeak ::
    steps 2 2 ++ steps 3 2 ++ .run 2 { rand := [4] } :: .run 3 { rand := [4, 120] } ::
    steps 2 5 ++ steps 3 5 ++ steps 4 1 ++ .env 180 :: steps 4 2

/-- A guarded run with a leak. -/
theorem leakHeld_alice : ∃ q,
    leakServer.Reach (fun q l => LeakGuard q.1 l) (freshBoot, []) q ∧
    (q.2, q.1.shared.clock) = ([.reset, .froze 2 tagMilitary 1 180, .fired 2], 101) ∧
    LeakHeld q.1 q.2 := by
  obtain ⟨q, hq, hf⟩ := leakServer.exists_reach_of_any (fun q l => LeakGuard q.1 l)
    (freshBoot, []) leakScript (fun q => (q.2, q.1.shared.clock) ==
      ([.reset, .froze 2 tagMilitary 1 180, .fired 2], 101)) (by decide +kernel)
  exact ⟨q, hq, eq_of_beq hf, leakHeld_of_guard hq⟩

/-- Without the guard the timer of Alice's leak ends Bob's. -/
theorem not_leakHeld : ∃ q, leakServer.Reach System.anyStep (freshBoot, []) q ∧
    ¬ LeakHeld q.1 q.2 := by
  obtain ⟨q, hq, hf⟩ := leakServer.exists_reach_of_any System.anyStep (freshBoot, [])
    twoLeaksScript (fun q => (q.2, q.1.shared.clock, q.1.shared.market.frozenTags) ==
      ([.reset, .froze 2 tagMilitary 1 180, .fired 2, .froze 3 tagMilitary 1 300, .fired 3],
        181, 0)) (by decide +kernel)
  obtain ⟨hhist, hclock, hmask⟩ : q.2 = [.reset, .froze 2 tagMilitary 1 180, .fired 2,
      .froze 3 tagMilitary 1 300, .fired 3] ∧ q.1.shared.clock = 181 ∧
      q.1.shared.market.frozenTags = 0 := by simpa using eq_of_beq hf
  refine ⟨q, hq, fun h => ?_⟩
  have hheld := h [.reset, .froze 2 tagMilitary 1 180, .fired 2] 3 tagMilitary 1 300 [.fired 3]
    hhist (by decide) (by decide) (by omega)
  rw [hmask] at hheld
  revert hheld
  decide

end UnderFlow
