import UnderFlow.Server.Origin

/-!
# Orders

* `npc_step` : what a step can do to the NPC board.
* `order_step` : every order up after a step was up before it, or has just been put up.
* `Paying` : every order pays something (`paying_step`), and so does every sale under way.
-/

namespace UnderFlow

variable {s s' : Shared} {c : Choice} {th th' : Thread} {a : Action Thread}

/-! ### Writes -/

/-- An order about to be put up: id, required tags and bounty. -/
abbrev Order := ℤ × Tags × ℤ

/-- The order the seeding is about to put up. -/
def Seed.orders : Seed → Option Order
  | .npc n _ => some n
  | _ => none

/-- The order a sequence is about to put up. -/
def NpcSequence.orders : NpcSequence → Option Order
  | .add t n b => some (n, t, b)
  | _ => none

/-- The order the next action of a thread puts up. -/
def Thread.orders : Thread → Option Order
  | .main (.seed pc) => pc.orders
  | .npcSequence pc => pc.orders
  | .roundEndTimer (.reset (.seed pc)) => pc.orders
  | _ => none

/-- The order the next action of a thread takes, for a seller. -/
def Thread.fills : Thread → Option ℤ
  | .session _ _ (.sell npcId _ .take) => some npcId
  | _ => none

/-- What a step can do to the NPC board. -/
inductive NpcStep (npcs : List NPCSlot) (th : Thread) (npcs' : List NPCSlot) : Prop
  | same (h : npcs' = npcs)
  | take (npcId : ℤ) (hth : th.fills = some npcId) (npc : NPCSlot)
      (h : npcTake npcs npcId = some (npc, npcs'))
  | add (o : Order) (hth : th.orders = some o) (now : ℕ)
      (h : npcAdd npcs now o.1 o.2.1 o.2.2 = some npcs')
  | age (now : ℕ)
      (h : npcs' = (npcDespawnAged npcs now evtNpcMaxAgeSec evtNpcAgeStepSec maxNpcSlots).2)
  | init (h : npcs' = npcInit)

theorem Action.Steps.npcs_eq {β : Type} {a : Action β} {b : β} {l : List Store} {fd : Option ℕ}
    (h : a.Steps s c s' b) (hw : a.Within l fd) (hl : Store.npcs ∉ l) : s'.npcs = s.npcs :=
  h.frame.npcs (hw.store_ne hl)

/-- The effect of `npc_add`. -/
theorem exec_npcAdd {th : Thread} (o : Order) {r} (hth : th.orders = some o)
    (h : (Op.npcAdd o.1 o.2.1 o.2.2).exec s c = some (s', r)) : NpcStep s.npcs th s'.npcs := by
  simp only [Op.exec] at h
  split at h <;> cases h
  · exact .same rfl
  · rename_i npcs hadd
    exact .add o hth s.clock hadd

/-- The effect of `npc_take`. -/
theorem exec_npcTake {npcId : ℤ} {r} (h : (Op.npcTake npcId).exec s c = some (s', r)) :
    (s' = s ∧ r = none ∧ npcTake s.npcs npcId = none) ∨
      ∃ npc npcs, s' = { s with npcs := npcs } ∧ r = some npc ∧
        npcTake s.npcs npcId = some (npc, npcs) := by
  simp only [Op.exec] at h
  split at h <;> cases h
  · exact .inl ⟨rfl, rfl, ‹_›⟩
  · rename_i p hp
    exact .inr ⟨p.1, p.2, rfl, rfl, hp⟩

theorem seedMarketAndNpc_npcs {pc : Seed} {b} (h : (seedMarketAndNpc pc).Steps s c s' b)
    (hth : th.orders = pc.orders) : NpcStep s.npcs th s'.npcs := by
  cases pc with
  | npc n todo =>
    obtain ⟨r, hr, -⟩ := h
    exact exec_npcAdd n hth hr
  | _ => exact .same (h.frame.npcs (by simp [seedMarketAndNpc, Op.store]))

theorem clientLoop_npcs {sock : ℕ} {key : Key} {pc : Command} {b}
    (h : (clientLoop sock key pc).Steps s c s' b) :
    NpcStep s.npcs (.session sock key pc) s'.npcs := by
  cases pc with
  | sell n ds q =>
    cases q with
    | take =>
      obtain ⟨r, hr, -⟩ := h
      obtain ⟨rfl, -, -⟩ | ⟨npc, npcs, rfl, -, hp⟩ := exec_npcTake hr
      · exact .same rfl
      · exact .take n rfl npc hp
    | _ => exact .same (h.frame.npcs (by simp [clientLoop, Action.map, handleSell, Op.store]))
  | bankruptcy q => exact .same (h.npcs_eq (checkBankruptcy_within sock key q) (by simp))
  | buy d q => exact .same (h.npcs_eq (handleBuy_within sock key d q) (by simp))
  | dispose d q => exact .same (h.npcs_eq (handleDispose_within sock key d q) (by simp))
  | inventory q => exact .same (h.npcs_eq (handleInventory_within sock key q) (by simp))
  | rumor k q => exact .same (h.npcs_eq (handleRumor_within sock key k q) (by simp))
  | payoff q => exact .same (h.npcs_eq (handlePayoff_within sock key q) (by simp))
  | minigame code q =>
    exact .same (h.npcs_eq (handleMinigameSubmit_within sock key code q) (by simp))
  | selfRaid q => exact .same (h.npcs_eq (fireSelfPoliceRaid_within sock key q) (by simp))
  | leak q => exact .same (h.npcs_eq (firePublicLeak_within q) (by simp))
  | fakeRich q => exact .same (h.npcs_eq (handleFakeRich_within sock key q) (by simp))
  | endround q => exact .same (h.npcs_eq (fireRoundEndCountdown_within _ q) (by simp))
  | _ => exact .same (h.frame.npcs (by simp [clientLoop, Op.store]))

theorem triggerRoundReset_npcs {pc : Reset} {b} (h : (triggerRoundReset pc).Steps s c s' b) :
    NpcStep s.npcs (.roundEndTimer (.reset pc)) s'.npcs := by
  cases pc with
  | npcs =>
    obtain ⟨r, hr, -⟩ := h
    cases hr
    exact .init rfl
  | masterPurge pc => exact .same (h.npcs_eq (purgeDocsIn_within .master pc) (by simp))
  | userPurge name todo pc =>
    exact .same (h.npcs_eq (purgeDocsIn_within (.entry name) pc) (by simp))
  | seed pc =>
    obtain ⟨n, hn, -⟩ := Action.steps_map.1 h
    exact seedMarketAndNpc_npcs hn rfl
  | _ => exact .same (h.frame.npcs (by simp [triggerRoundReset, Op.store]))

theorem eventThreadFunc_npcs {v : EventVars} {pc : Event} {b}
    (h : (eventThreadFunc v pc).Steps s c s' b) : NpcStep s.npcs (.event v pc) s'.npcs := by
  cases pc with
  | ageNpcs q =>
    cases q with
    | despawn =>
      obtain ⟨r, hr, -⟩ := h
      cases hr
      exact .age s.clock rfl
    | _ =>
      exact .same (h.frame.npcs (by simp [eventThreadFunc, Action.map, eventAgeNpcs, Op.store]))
  | roundEnd q => exact .same (h.npcs_eq (fireRoundEndCountdown_within _ q) (by simp))
  | ageMarket q => exact .same (h.npcs_eq (eventAgeMarket_within q) (by simp))
  | raid q => exact .same (h.npcs_eq (firePeriodicPoliceRaid_within q) (by simp))
  | leak q => exact .same (h.npcs_eq (firePublicLeak_within q) (by simp))
  | spawn q => exact .same (h.npcs_eq (eventSpawnMarket_within q) (by simp))
  | _ => exact .same (h.frame.npcs (by simp [eventThreadFunc, Op.store]))

/-- **What a step can do to the NPC board.** -/
theorem npc_step (ha : th.action = some a) (h : a.Steps s c s' th') :
    NpcStep s.npcs th s'.npcs := by
  cases th with
  | main pc =>
    cases ha
    cases pc with
    | npcInit =>
      obtain ⟨r, hr, -⟩ := h
      cases hr
      exact .init rfl
    | seed pc =>
      obtain ⟨n, hn, -⟩ := Action.steps_map.1 h
      obtain ⟨m, hm, -⟩ := Action.steps_map.1 hn
      exact seedMarketAndNpc_npcs hm rfl
    | _ => exact .same (h.frame.npcs (by simp [Action.map, mainThread, Op.store]))
  | session sock key pc =>
    cases ha
    obtain ⟨n, hn, -⟩ := Action.steps_map.1 h
    exact clientLoop_npcs hn
  | event v pc =>
    cases ha
    obtain ⟨n, hn, -⟩ := Action.steps_map.1 h
    exact eventThreadFunc_npcs hn
  | npcSequence pc =>
    cases ha
    cases pc with
    | add tags n bounty =>
      obtain ⟨r, hr, -⟩ := h
      exact exec_npcAdd (n, tags, bounty) rfl hr
    | _ => exact .same (h.frame.npcs (by simp [Action.map, eventDoNpcSequence, Op.store]))
  | roundEndTimer pc =>
    cases ha
    cases pc with
    | reset pc =>
      obtain ⟨n, hn, -⟩ := Action.steps_map.1 h
      obtain ⟨m, hm, -⟩ := Action.steps_map.1 hn
      exact triggerRoundReset_npcs hm
    | _ => exact .same (h.frame.npcs (by simp [Action.map, roundEndTimerThread, Op.store]))
  | login sock pc => cases ha; exact .same (h.npcs_eq (clientLogin_within sock pc) (by simp))
  | disconnect sock pc =>
    cases ha
    exact .same (h.npcs_eq (clientDisconnect_within sock pc) (by simp))
  | leakRecovery mask dur pc =>
    cases ha
    exact .same (h.npcs_eq (leakRecoveryThread_within mask dur pc) (by simp))
  | raidTimeout serial pc =>
    cases ha
    exact .same (h.npcs_eq (periodicRaidTimeoutThread_within pc) (by simp))
  | finished => cases ha

/-- Every order up after a step was up before it, or has just been put up. -/
theorem order_step {npcs npcs' : List NPCSlot} (h : NpcStep npcs th npcs') {npc : NPCSlot}
    (hs : npc ∈ npcs') (hactive : npc.active = true) : npc ∈ npcs ∨
      ∃ o, th.orders = some o ∧ (npc.npcId, npc.requiredTags, npc.bounty) = o := by
  cases h with
  | same h => exact .inl (h ▸ hs)
  | take npcId _ _ h =>
    rcases mem_updateFirst h hs with rfl | hs
    · cases hactive
    · exact .inl hs
  | add o hth now h =>
    obtain ⟨⟨old, new⟩, hu, rfl⟩ := Option.map_eq_some_iff.1 h
    rcases mem_updateFirst hu hs with rfl | hs
    · exact .inr ⟨o, hth, rfl⟩
    · exact .inl hs
  | age now h =>
    subst h
    obtain ⟨old, hold, rfl⟩ := List.mem_map.1 hs
    split_ifs at hactive ⊢
    exact .inl hold
  | init h =>
    subst h
    rw [List.eq_of_mem_replicate hs] at hactive
    cases hactive

/-! ### Bounties -/

/-- The order a sale is paid for. -/
def Sell.paid : Sell → Option NPCSlot
  | .dispose npc _ _ _ | .lookup npc _ | .credit npc _ _ _ | .creditIndeterminate npc _ _
  | .reply npc _ _ _ => some npc
  | _ => none

/-- The orders left to be seeded. -/
def Seed.npcs : Seed → List Order
  | .npc n todo => n :: todo
  | _ => []

/-- The tags drawn for an order are not empty, and its bounty is positive. -/
def NpcSequence.Pays : NpcSequence → Prop
  | .full | .mask | .tags _ => True
  | .hint t | .hintSend t _ | .start t | .sleep t _ | .npcId t | .bounty t _ => t ≠ 0
  | .add _ _ b | .announce _ _ b => 0 < b

/-- The bounties a thread works with are positive. -/
def Thread.Pays : Thread → Prop
  | .main (.seed pc) => pc.npcs ⊆ seedNpcs
  | .session _ _ (.sell _ _ pc) => ∀ npc, pc.paid = some npc → 0 < npc.bounty
  | .npcSequence pc => pc.Pays
  | .roundEndTimer (.reset (.seed pc)) => pc.npcs ⊆ seedNpcs
  | _ => True

/-- Every order pays something. -/
abbrev Paying : Server → Prop := Pool.Inv
  (fun s => ∀ npc ∈ s.npcs, npc.active = true → 0 < npc.bounty) (fun _ th => th.Pays)

theorem seedNpcs_bounty : ∀ o ∈ seedNpcs, 0 < o.2.2 := by
  intro o ho
  simp only [seedNpcs, List.mem_cons, List.not_mem_nil, or_false] at ho
  rcases ho with rfl | rfl <;> simp

theorem countBits_pos {tags : Tags} (h : tags ≠ 0) : 0 < countBits tags := by
  rw [countBits, List.length_pos_iff, Ne, List.filter_eq_nil_iff]
  intro hnone
  refine h (BitVec.eq_of_getLsbD_eq fun i hi => ?_)
  rw [(Bool.not_eq_true _).mp (hnone i (List.mem_range.2 hi))]
  exact BitVec.getLsbD_zero.symm

theorem npcBounty_pos {tags : Tags} (h : tags ≠ 0) (r : ℕ) : 0 < npcBounty tags r := by
  have htags := countBits_pos h
  simp only [npcBounty]
  split_ifs <;> omega

theorem Thread.Pays.orders {o : Order} (h : th.Pays) (ho : th.orders = some o) : 0 < o.2.2 := by
  have hseed : ∀ q : Seed, q.npcs ⊆ seedNpcs → q.orders = some o → 0 < o.2.2 := by
    intro q hq ho
    cases q <;> cases ho
    exact seedNpcs_bounty _ (hq List.mem_cons_self)
  cases th with
  | main pc =>
    cases pc with
    | seed q => exact hseed q h ho
    | _ => cases ho
  | npcSequence pc =>
    cases pc with
    | add tags n bounty =>
      cases ho
      exact h
    | _ => cases ho
  | roundEndTimer pc =>
    cases pc with
    | reset pc =>
      cases pc with
      | seed q => exact hseed q h ho
      | _ => cases ho
    | _ => cases ho
  | _ => cases ho

theorem check_paid {npc : NPCSlot} {u : Tags} {todo : List ℤ} {q' : Sell}
    (h : .cont q' = Sell.check npc u todo) : q'.paid = none := by
  cases todo with
  | nil =>
    simp only [Sell.check] at h
    split_ifs at h
    cases h
    rfl
  | cons d todo =>
    cases h
    rfl

theorem disposeNext_paid {npc : NPCSlot} {sold : List DocFile} (todo : List ℤ) :
    (Sell.disposeNext npc sold todo).paid = some npc := by
  cases todo <;> rfl

/-- The order a sale is paid for is the one it took. -/
theorem handleSell_paid {sock : ℕ} {key : Key} {n : ℤ} {ds : List ℤ} {q q' : Sell} {npc : NPCSlot}
    (h : (handleSell sock key n ds q).Steps s c s' (.cont q')) (hp : q'.paid = some npc) :
    q.paid = some npc ∨ (q = .take ∧ ∃ npcs, npcTake s.npcs n = some (npc, npcs)) := by
  cases q with
  | findNpc | frozen npc df todo u =>
    obtain ⟨r, -, hn⟩ := h
    simp only [handleSell] at hn
    split at hn
    · cases hn
    · rw [check_paid hn] at hp
      cases hp
  | has npc d todo u | read npc d todo u =>
    obtain ⟨r, -, hn⟩ := h
    simp only [handleSell] at hn
    split at hn <;> cases hn
    cases hp
  | take =>
    obtain ⟨r, hr, hn⟩ := h
    obtain ⟨-, rfl, -⟩ | ⟨npc', npcs, -, rfl, ht⟩ := exec_npcTake hr
    · cases hn
    · simp only [handleSell, Next.cont.injEq] at hn
      rw [hn, disposeNext_paid] at hp
      cases hp
      exact .inr ⟨rfl, npcs, ht⟩
  | dispose npc' d todo sold =>
    obtain ⟨r, -, hn⟩ := h
    simp only [handleSell, Next.cont.injEq] at hn
    rw [hn, disposeNext_paid] at hp
    exact .inl hp
  | lookup npc' sold =>
    obtain ⟨r, -, hn⟩ := h
    simp only [handleSell] at hn
    split at hn <;> cases hn <;> exact .inl hp
  | credit npc' sold rec off | creditIndeterminate npc' sold rec =>
    obtain ⟨r, -, hn⟩ := h
    cases hn
    exact .inl hp
  | _ =>
    obtain ⟨r, -, hn⟩ := h
    cases hn
    try cases hp

theorem eventDoNpcSequence_pays {q q' : NpcSequence} (hP : q.Pays)
    (h : (eventDoNpcSequence q).Steps s c s' (.cont q')) : q'.Pays := by
  cases q with
  | full =>
    obtain ⟨r, -, hn⟩ := h
    simp only [eventDoNpcSequence] at hn
    split_ifs at hn
    cases hn
    trivial
  | tags frozen =>
    obtain ⟨r, -, hn⟩ := h
    simp only [eventDoNpcSequence] at hn
    split_ifs at hn with htags
    cases hn
    exact htags
  | bounty tags n =>
    obtain ⟨r, -, hn⟩ := h
    cases hn
    exact npcBounty_pos hP _
  | add tags n bounty =>
    obtain ⟨r, -, hn⟩ := h
    simp only [eventDoNpcSequence] at hn
    split_ifs at hn
    cases hn
    exact hP
  | _ =>
    obtain ⟨r, -, hn⟩ := h
    cases hn
    try exact hP

theorem npcNext_npcs {todo : List Order} {q' : Seed} (h : .cont q' = Seed.npcNext todo) :
    q'.npcs = todo := by
  cases todo <;> cases h
  rfl

theorem docNext_npcs {todo : List DocFile} {q' : Seed} (h : .cont q' = Seed.docNext todo) :
    q'.npcs ⊆ seedNpcs := by
  cases todo with
  | nil =>
    rw [npcNext_npcs (show .cont q' = Seed.npcNext seedNpcs from h)]
    exact List.Subset.refl _
  | cons doc todo =>
    cases h
    exact List.nil_subset _

theorem seedMarketAndNpc_seeds {q q' : Seed} (hq : q.npcs ⊆ seedNpcs)
    (h : (seedMarketAndNpc q).Steps s c s' (.cont q')) : q'.npcs ⊆ seedNpcs := by
  obtain ⟨r, -, hn⟩ := h
  cases q with
  | write doc todo =>
    cases hn
    exact List.nil_subset _
  | add doc todo => exact docNext_npcs hn
  | npc n todo =>
    rw [npcNext_npcs hn]
    exact List.Subset.trans (List.subset_cons_self _ _) hq

theorem triggerRoundReset_seeds {pc : Reset} {q' : Seed}
    (hpc : ∀ q, pc = .seed q → q.npcs ⊆ seedNpcs)
    (h : (triggerRoundReset pc).Steps s c s' (.cont (.seed q'))) : q'.npcs ⊆ seedNpcs := by
  cases pc with
  | rumor =>
    obtain ⟨r, -, hn⟩ := h
    cases hn
    exact List.nil_subset _
  | seed q =>
    obtain ⟨n, hn, he⟩ := Action.steps_map.1 h
    rcases n with q' | _ | _ <;> cases he
    exact seedMarketAndNpc_seeds (hpc q rfl) hn
  | masterPurge q =>
    obtain ⟨n, -, he⟩ := Action.steps_map.1 h
    rcases n with q' | _ | _ <;> cases he
  | userPurge name todo q =>
    obtain ⟨n, -, he⟩ := Action.steps_map.1 h
    rcases n with q' | _ | _ <;> cases todo <;> cases he
  | users | marketSnapshot | npcSnapshot =>
    obtain ⟨r, -, hn⟩ := h
    cases r <;> cases hn
  | marketSend slot todo | npcSend slot todo =>
    obtain ⟨r, -, hn⟩ := h
    cases todo <;> cases hn
  | _ =>
    obtain ⟨r, -, hn⟩ := h
    cases hn

theorem pays_own (hG : ∀ npc ∈ s.npcs, npc.active = true → 0 < npc.bounty) (hP : th.Pays)
    (ha : th.action = some a) (h : a.Steps s c s' th') : th'.Pays := by
  have ho := thread_origin ha h
  cases th' with
  | main pc' =>
    obtain ⟨pc, rfl, hs⟩ := ho
    cases pc' with
    | seed q' =>
      cases pc with
      | npcInit =>
        obtain ⟨r, -, hn⟩ := hs
        cases hn
        exact List.nil_subset _
      | seed q =>
        obtain ⟨n, hn, he⟩ := Action.steps_map.1 hs
        rcases n with q' | _ | _ <;> cases he
        exact seedMarketAndNpc_seeds hP hn
      | startEvents | add sock =>
        obtain ⟨r, -, hn⟩ := hs
        simp only [mainThread] at hn
        split_ifs at hn <;> cases hn
      | _ =>
        obtain ⟨r, -, hn⟩ := hs
        cases hn
    | _ => trivial
  | session sock key pc' =>
    obtain ⟨pc, rfl, hs⟩ | ⟨rfl, -⟩ := ho
    · cases pc' with
      | sell n ds q' =>
        intro npc hnpc
        obtain ⟨rfl, -⟩ | ⟨q, rfl, hq⟩ := session_origin hs
        · cases hnpc
        · obtain hold | ⟨rfl, npcs, ht⟩ := handleSell_paid hq hnpc
          · exact hP npc hold
          · obtain ⟨hmem, horders⟩ := mem_of_updateFirst ht
            exact hG npc hmem (Bool.and_eq_true _ _ ▸ horders).1
      | _ => trivial
    · trivial
  | npcSequence pc' =>
    obtain ⟨pc, rfl, hs⟩ := ho
    exact eventDoNpcSequence_pays hP hs
  | roundEndTimer pc' =>
    obtain ⟨pc, rfl, hs⟩ := ho
    cases pc' with
    | reset r' =>
      cases r' with
      | seed q' =>
        cases pc with
        | reset pc =>
          obtain ⟨n, hn, he⟩ := Action.steps_map.1 hs
          rcases n with pc' | _ | _ <;> cases he
          exact triggerRoundReset_seeds (fun q hq => by subst hq; exact hP) hn
        | check =>
          obtain ⟨r, -, hn⟩ := hs
          simp only [roundEndTimerThread] at hn
          split_ifs at hn
          cases hn
        | _ =>
          obtain ⟨r, -, hn⟩ := hs
          cases hn
      | _ => trivial
    | _ => trivial
  | _ => trivial

/-- **Orders go on paying.** -/
theorem paying_step {p p' : Server} {l : Label} (hI : Paying p) (h : server.next p l = some p') :
    Paying p' := by
  cases l with
  | env e => exact Pool.inv_env hI h hI.shared fun _ hth => hth
  | run t c =>
    refine Pool.inv_run hI h (fun th sh th' new hth hs => ?_) fun _ _ _ _ _ _ _ _ _ _ hu => hu
    obtain ⟨a, r, ha, hr, rfl, rfl⟩ := threadStep_eq_some.1 hs
    refine ⟨fun npc hnpc hactive => ?_, pays_own hI.shared (hI.thread t th hth) ha ⟨r, hr, rfl⟩,
      fun u hu => ?_⟩
    · rcases order_step (npc_step ha ⟨r, hr, rfl⟩) hnpc hactive with hold | ⟨o, ho, hnew⟩
      · exact hI.shared npc hold hactive
      · have hpos := (hI.thread t th hth).orders ho
        rw [← hnew] at hpos
        exact hpos
    · obtain ⟨n, rfl⟩ | ⟨sock, -, rfl⟩ := spawned_start hu
      · cases n <;> trivial
      · trivial

theorem paying_boot (cwd : Dir) (files : Files) (users : UserDb) (clock : ℕ) :
    Paying (boot cwd files users clock) where
  shared := nofun
  thread t th h := by
    obtain rfl := List.mem_singleton.1 (List.mem_of_getElem? h)
    trivial

end UnderFlow
