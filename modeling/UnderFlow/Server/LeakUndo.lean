import UnderFlow.Client.Board
import UnderFlow.Server.Alone
import UnderFlow.Server.Events
import UnderFlow.Server.FreezeCache

/-!
# Undoing a leak

`fire_public_leak` of `src/server/events.c` freezes and announces a tag before it has a timer to
give the tag back.

* `leak_run` : what a leak does that runs alone, at every failure.
* `unfreeze_freeze` : giving a fresh tag back restores the market.
* `leakTraceless_iff` : a leak that fails leaves no trace exactly if nobody was told of it.
-/

namespace UnderFlow

/-- The tags a leak may freeze: those of a listing that are not frozen. -/
def leakTags (m : Market) : List Tags :=
  tagList.filter fun t => t.meets (marketActiveTags m) && !t.meets m.frozenTags

/-- A client after some packets. -/
def UiClient.hears (client : UiClient) (pkts : List Packet) : UiClient :=
  pkts.foldl (fun client pkt => client.receive pkt.received) client

/-- What a leak is to leave, when it returns whether it was fired: either the market as it was and
no change of any connected client's mask, or one tag more in all of them. -/
def LeakOutcome (s s' : Shared) (sent : List (ℕ × Packet)) : Bool → Prop
  | false => s'.market = s.market ∧
      ∀ sock ∈ clientSockets s.clients, ∀ client : UiClient, client.mode ≠ .gameOver →
        (client.hears (packetsTo sock sent)).state.frozenMask = client.state.frozenMask
  | true => ∃ t ∈ tagList, t.meets s.market.frozenTags = false ∧
      (∃ slot ∈ s.market.slots, slot.active = true ∧ t.meets slot.tags = true) ∧
      s'.market.frozenTags = s.market.frozenTags ||| t ∧
      s'.market.slots = s.market.slots.map (fun slot =>
        { slot with isFrozen := slot.isFrozen || slot.active && slot.tags.meets t }) ∧
      ∀ sock ∈ clientSockets s.clients, ∀ client : UiClient, client.mode ≠ .gameOver →
        (client.hears (packetsTo sock sent)).state.frozenMask = client.state.frozenMask ||| t

/-- The choices of a leak: its seventh operation is the allocation, its eighth starts the thread. -/
def leakChoices (choose : ℕ → Choice) : List Choice := (List.range 9).map choose

/-- A leak that runs alone leaves what it is to leave. -/
def LeakTraceless (s : Shared) (choose : ℕ → Choice) : Prop :=
  ∃ log s' fired, runAlone firePublicLeak (leakChoices choose) s .mask = some (log, s', .ok fired) ∧
    LeakOutcome s s' (sentAlone log) fired

/-- The tag a leak picks. -/
def leakTag (s : Shared) (choose : ℕ → Choice) : Tags :=
  (leakTags s.market).getD ((choose 2).rand.getD 0 0 % (leakTags s.market).length) 0

/-- The cached flags of the listings with a tag are right. -/
def FlagsRight (m : Market) (t : Tags) : Prop :=
  ∀ slot ∈ m.slots, slot.active = true → slot.tags.meets t = true →
    slot.isFrozen = slot.tags.meets m.frozenTags

variable {s s' : Shared} {m : Market} {t : Tags} {choose : ℕ → Choice} {log : List Made}
  {avail : List Tags} {fired : Bool} {out : Ended Bool} {cs : List Choice} {c : Choice} {dur : ℕ}

/-! ### The market -/

theorem meets_foldl (t mask : Tags) (slots : List MarketSlot) :
    t.meets (slots.foldl (fun mask slot => mask ||| slot.tags) mask) =
      (t.meets mask || slots.any fun slot => t.meets slot.tags) := by
  induction slots generalizing mask with
  | nil => simp
  | cons slot slots ih => rw [List.foldl_cons, ih, meets_or, List.any_cons, Bool.or_assoc]

/-- A tag of the listings is on one. -/
theorem exists_listing (h : t.meets (marketActiveTags m) = true) :
    ∃ slot ∈ m.slots, slot.active = true ∧ t.meets slot.tags = true := by
  rw [marketActiveTags, meets_foldl, meets_zero, Bool.false_or, List.any_eq_true] at h
  obtain ⟨slot, hslot, ht⟩ := h
  obtain ⟨hmem, hact⟩ := List.mem_filter.1 hslot
  exact ⟨slot, hmem, hact, ht⟩

theorem or_and_not {a b : Tags} (h : b &&& a = 0#32) : (a ||| b) &&& ~~~b = a := by
  refine BitVec.eq_of_getLsbD_eq fun i hi => ?_
  have hbit := congrArg (fun x => x.getLsbD i) h
  simp only [BitVec.getLsbD_and, BitVec.getLsbD_zero] at hbit
  rw [BitVec.getLsbD_and, BitVec.getLsbD_or, BitVec.getLsbD_not]
  cases ha : a.getLsbD i <;> cases hb : b.getLsbD i <;> simp_all

theorem flag_eta {slot : MarketSlot} {b : Bool} (h : slot.isFrozen = b) :
    { slot with isFrozen := b } = slot := by
  subst h
  rfl

/-- **A fresh tag that is given back** leaves the market as it was, exactly if the flags of the
listings with the tag were right. -/
theorem unfreeze_freeze (ht : t.meets m.frozenTags = false) :
    unfreezeTags (freezeTags m t) t = m ↔ FlagsRight m t := by
  have hmask : (m.frozenTags ||| t) &&& ~~~t = m.frozenTags := or_and_not (meets_eq_false.1 ht)
  have hslots : (unfreezeTags (freezeTags m t) t).slots = m.slots.map fun slot =>
      if slot.active && slot.tags.meets t
      then { slot with isFrozen := slot.tags.meets m.frozenTags } else slot := by
    simp only [unfreezeTags, freezeTags, List.map_map, hmask]
    refine List.map_congr_left fun slot _ => ?_
    simp only [Function.comp]
    by_cases hmeets : (slot.active && slot.tags.meets t) = true
    · simp only [hmeets, if_true, Bool.true_and]
      by_cases hfree : slot.tags.meets m.frozenTags = true
      · simp [hfree]
      · rw [Bool.not_eq_true] at hfree
        simp [hfree]
    · rw [if_neg hmeets, if_neg hmeets, if_neg]
      rw [Bool.and_eq_true]
      exact fun hall => hmeets hall.1
  have hfrozen : (unfreezeTags (freezeTags m t) t).frozenTags = m.frozenTags := hmask
  constructor
  · intro h slot hslot hact hmeets
    rw [h] at hslots
    obtain ⟨i, hi⟩ := List.mem_iff_getElem?.1 hslot
    have hsame := congrArg (fun slots => slots[i]?) hslots
    simp only [List.getElem?_map, hi, Option.map_some, Option.some.injEq] at hsame
    rw [hact, hmeets] at hsame
    exact congrArg MarketSlot.isFrozen hsame
  · intro h
    refine congrArg₂ Market.mk (hslots.trans ?_) hfrozen
    refine (List.map_congr_left fun slot hslot => ?_).trans (List.map_id _)
    split_ifs with hmeets
    · obtain ⟨hact, htag⟩ := Bool.and_eq_true_iff.1 hmeets
      exact flag_eta (h slot hslot hact htag)
    · rfl

theorem freezeTags_slots (m : Market) (t : Tags) : (freezeTags m t).slots = m.slots.map fun slot =>
    { slot with isFrozen := slot.isFrozen || slot.active && slot.tags.meets t } := by
  refine List.map_congr_left fun slot _ => ?_
  split_ifs with hmeets
  · rw [hmeets, Bool.or_true]
  · rw [Bool.not_eq_true] at hmeets
    rw [hmeets, Bool.or_false]

/-! ### The clients -/

/-- A leak adds its tag to the mask of a client. -/
theorem hears_leak (client : UiClient) {dur : ℕ} {text : Bytes} (hplays : client.mode ≠ .gameOver)
    (n : ℕ) : (client.hears (List.replicate (n + 1) (.newsLeak t dur text))).state.frozenMask =
      client.state.frozenMask ||| t := by
  induction n generalizing client with
  | zero =>
    show (client.receive (.newsLeak t dur text)).state.frozenMask = _
    rw [UiClient.receive, if_neg hplays]
    rfl
  | succ n ih =>
    have hstep : client.receive (.newsLeak t dur text) =
        { client with state := client.state.onNewsLeak t text } := by
      rw [UiClient.receive, if_neg hplays]
    rw [List.replicate_succ]
    show ((client.receive (.newsLeak t dur text)).hears _).state.frozenMask = _
    rw [hstep, ih { client with state := client.state.onNewsLeak t text } hplays]
    show client.state.frozenMask ||| t ||| t = _
    rw [BitVec.or_assoc, BitVec.or_self]

/-- Whom a broadcast reaches hears it, once for each slot. -/
theorem packetsTo_replicate {sock : ℕ} {pkt : Packet} (h : sock ∈ clientSockets s.clients) :
    ∃ n, packetsTo sock ((Op.broadcast pkt).deliveries s) = List.replicate (n + 1) pkt := by
  have hall : ∀ x ∈ packetsTo sock ((Op.broadcast pkt).deliveries s), x = pkt := by
    intro x hx
    obtain ⟨w, hw, hsome⟩ := List.mem_filterMap.1 hx
    obtain ⟨y, -, rfl⟩ := List.mem_map.1 hw
    split_ifs at hsome
    cases hsome
    rfl
  have hmem : pkt ∈ packetsTo sock ((Op.broadcast pkt).deliveries s) :=
    List.mem_filterMap.2 ⟨(sock, pkt), List.mem_map.2 ⟨sock, h, rfl⟩, if_pos rfl⟩
  have hlen := List.length_pos_of_mem hmem
  refine ⟨(packetsTo sock ((Op.broadcast pkt).deliveries s)).length - 1, ?_⟩
  rw [Nat.sub_add_cancel hlen]
  exact List.eq_replicate_of_mem hall

/-! ### The leak -/

/-- The state once a tag is frozen. -/
def leakFrozen (s : Shared) (t : Tags) : Shared := { s with market := freezeTags s.market t }

/-- The state once it is given back. -/
def leakGivenBack (s : Shared) (t : Tags) : Shared :=
  { s with market := unfreezeTags (freezeTags s.market t) t }

theorem getD_mem {r : ℕ} (h : avail ≠ []) : avail.getD (r % avail.length) 0 ∈ avail := by
  have hlt : r % avail.length < avail.length := Nat.mod_lt _ (List.length_pos_iff.2 h)
  rw [List.getD_eq_getElem?_getD, List.getElem?_eq_getElem hlt, Option.getD_some]
  exact List.getElem_mem hlt

theorem leakTag_mem (h : leakTags s.market ≠ []) :
    leakTag s choose ∈ leakTags s.market := getD_mem h

theorem present_next (m : Market) :
    (firePublicLeak (.present m.frozenTags)).next (marketActiveTags m) =
      if leakTags m = [] then (.ret false : Next Leak Bool) else .cont (.pick (leakTags m)) := by
  unfold firePublicLeak leakTags
  dsimp only
  split
  · rename_i hnil
    rw [if_pos hnil]
  · rename_i hne
    rw [if_neg hne]

theorem leak_unfreeze
    (h : runAlone firePublicLeak cs (leakFrozen s t) (.unfreeze t) = some (log, s', out)) :
    sentAlone log = [] ∧ s' = leakGivenBack s t ∧ out = .ok false := by
  obtain ⟨c, cs, s₁, r, log, rfl, rfl, ⟨⟩, rfl, rfl, rfl⟩ := runAlone_eq_some.1 h
  exact ⟨rfl, rfl, rfl⟩

theorem leak_thread
    (h : runAlone firePublicLeak (c :: cs) (leakFrozen s t) (.thread t dur) = some (log, s', out)) :
    sentAlone log = [] ∧ ((c.ok = true ∧ s' = leakFrozen s t ∧ out = .ok true) ∨
      (c.ok = false ∧ s' = leakGivenBack s t ∧ out = .ok false)) := by
  obtain ⟨c, cs, s₁, r, log, ⟨⟩, rfl, ⟨⟩, h⟩ := runAlone_eq_some.1 h
  change RunRest firePublicLeak cs (leakFrozen s t) s' log out
    (if c.ok = true then .ret true else .cont (.unfreeze t)) at h
  by_cases hok : c.ok = true
  · rw [if_pos hok] at h
    obtain ⟨rfl, rfl, rfl⟩ := h
    exact ⟨rfl, .inl ⟨hok, rfl, rfl⟩⟩
  · rw [if_neg hok] at h
    obtain ⟨hsent, hs, hout⟩ := leak_unfreeze h
    exact ⟨hsent, .inr ⟨by simpa using hok, hs, hout⟩⟩

/-- From the allocation on nothing is sent, and a failure gives the tag back. -/
theorem leak_malloc {c₁ c₂ : Choice} (h : runAlone firePublicLeak (c₁ :: c₂ :: cs) (leakFrozen s t)
      (.malloc t dur) = some (log, s', out)) :
    sentAlone log = [] ∧ ((c₁.ok = true ∧ c₂.ok = true ∧ s' = leakFrozen s t ∧ out = .ok true) ∨
      (¬ (c₁.ok = true ∧ c₂.ok = true) ∧ s' = leakGivenBack s t ∧ out = .ok false)) := by
  obtain ⟨c, cs, s₁, r, log, ⟨⟩, rfl, ⟨⟩, h⟩ := runAlone_eq_some.1 h
  change RunRest firePublicLeak (c₂ :: cs) (leakFrozen s t) s' log out
    (if c₁.ok = true then .cont (.thread t dur) else .cont (.unfreeze t)) at h
  by_cases hok : c₁.ok = true
  · rw [if_pos hok] at h
    obtain ⟨hsent, ⟨hthread, hs, hout⟩ | ⟨hthread, hs, hout⟩⟩ := leak_thread h
    · exact ⟨hsent, .inl ⟨hok, hthread, hs, hout⟩⟩
    · exact ⟨hsent, .inr ⟨fun hboth => by simp [hboth.2] at hthread, hs, hout⟩⟩
  · rw [if_neg hok] at h
    obtain ⟨hsent, hs, hout⟩ := leak_unfreeze h
    exact ⟨hsent, .inr ⟨fun hboth => hok hboth.1, hs, hout⟩⟩

/-- **What a leak does** when it runs alone. -/
theorem leak_run
    (h : runAlone firePublicLeak (leakChoices choose) s .mask = some (log, s', out)) :
    (leakTags s.market = [] ∧ s' = s ∧ out = .ok false ∧ sentAlone log = []) ∨
      leakTags s.market ≠ [] ∧ ∃ dur text,
        sentAlone log = (Op.broadcast (.newsLeak (leakTag s choose) dur text)).deliveries s ∧
        (((choose 6).ok = true ∧ (choose 7).ok = true ∧ s' = leakFrozen s (leakTag s choose) ∧
            out = .ok true) ∨
          (¬ ((choose 6).ok = true ∧ (choose 7).ok = true) ∧
            s' = leakGivenBack s (leakTag s choose) ∧ out = .ok false)) := by
  obtain ⟨c, cs, s₁, r, log, ⟨⟩, rfl, ⟨⟩, h⟩ := runAlone_eq_some.1 h
  obtain ⟨c, cs, s₁, r, log, ⟨⟩, rfl, ⟨⟩, h⟩ := runAlone_eq_some.1 h
  rw [present_next] at h
  split_ifs at h with hnone
  · obtain ⟨rfl, rfl, rfl⟩ := h
    exact .inl ⟨hnone, rfl, rfl, rfl⟩
  · obtain ⟨c, cs, s₁, r, log, ⟨⟩, rfl, ⟨⟩, h⟩ := runAlone_eq_some.1 h
    obtain ⟨c, cs, s₁, r, log, ⟨⟩, rfl, ⟨⟩, h⟩ := runAlone_eq_some.1 h
    obtain ⟨c, cs, s₁, r, log, ⟨⟩, rfl, ⟨⟩, h⟩ := runAlone_eq_some.1 h
    obtain ⟨c, cs, s₁, r, log, ⟨⟩, rfl, ⟨⟩, h⟩ := runAlone_eq_some.1 h
    obtain ⟨hsent, hend⟩ := leak_malloc (t := leakTag s choose) h
    let dur := leakDurMinSec + (choose 2).rand.getD 1 0 % (leakDurMaxSec - leakDurMinSec + 1)
    refine .inr ⟨hnone, dur, cstr maxTextLen (choose 4).text, ?_, hend⟩
    exact (congrArg (_ ++ ·) hsent).trans (List.append_nil _)

/-! ### The leak ends -/

theorem ends_unfreeze : EndsWithin firePublicLeak 1 s (.unfreeze t) :=
  endsWithin_succ fun _ => ⟨_, (), rfl, fun _ h => nomatch h⟩

theorem ends_thread : EndsWithin firePublicLeak 2 s (.thread t dur) :=
  endsWithin_succ fun c => ⟨s, c.ok, rfl, fun pc' h => by
    cases hok : c.ok <;> rw [hok] at h <;> cases h
    exact ends_unfreeze⟩

theorem ends_malloc : EndsWithin firePublicLeak 3 s (.malloc t dur) :=
  endsWithin_succ fun c => ⟨s, c.ok, rfl, fun pc' h => by
    cases hok : c.ok <;> rw [hok] at h <;> cases h
    · exact endsWithin_mono ends_unfreeze (by decide)
    · exact ends_thread⟩

theorem ends_freeze : EndsWithin firePublicLeak 6 s (.freeze t dur) :=
  endsWithin_succ fun _ => ⟨_, (), rfl, fun _ h => by
    cases h
    refine endsWithin_succ fun _ => ⟨_, _, rfl, fun _ h => ?_⟩
    cases h
    exact endsWithin_succ fun _ => ⟨_, (), rfl, fun _ h => by cases h; exact ends_malloc⟩⟩

/-- A leak always comes to its end. -/
theorem ends_leak (s : Shared) : EndsWithin firePublicLeak 9 s .mask := by
  refine endsWithin_succ fun _ => ⟨s, s.market.frozenTags, rfl, fun _ h => ?_⟩
  cases h
  refine endsWithin_succ fun _ => ⟨s, marketActiveTags s.market, rfl, fun _ h => ?_⟩
  rw [present_next] at h
  split_ifs at h
  cases h
  exact endsWithin_succ fun _ => ⟨s, _, rfl, fun _ h => by cases h; exact ends_freeze⟩

/-! ### No trace -/

theorem mem_leakTags : t ∈ leakTags m ↔
    t ∈ tagList ∧ t.meets (marketActiveTags m) = true ∧ t.meets m.frozenTags = false := by
  simp [leakTags, List.mem_filter]

/-- A fresh tag changes the mask of a client that agrees with the server. -/
theorem or_fresh_ne (h : t ∈ leakTags m) : m.frozenTags ||| t ≠ m.frozenTags := by
  obtain ⟨-, hmeets, hfresh⟩ := mem_leakTags.1 h
  intro hsame
  have hzero : t = 0#32 := by
    rw [meets_eq_false, ← hsame] at hfresh
    refine BitVec.eq_of_getLsbD_eq fun i hi => ?_
    have hbit := congrArg (fun x => x.getLsbD i) hfresh
    simp only [BitVec.getLsbD_and, BitVec.getLsbD_or, BitVec.getLsbD_zero] at hbit ⊢
    cases ht : t.getLsbD i <;> simp_all
  rw [hzero] at hmeets
  simp [Tags.meets] at hmeets

/-- Whom a leak was announced to has its tag. -/
theorem hears_sent {client : UiClient} {sock : ℕ} {text : Bytes} {ws : List (ℕ × Packet)}
    (hws : ws = (Op.broadcast (.newsLeak t dur text)).deliveries s)
    (hsock : sock ∈ clientSockets s.clients) (hplays : client.mode ≠ .gameOver) :
    (client.hears (packetsTo sock ws)).state.frozenMask = client.state.frozenMask ||| t := by
  obtain ⟨n, hn⟩ : ∃ n, packetsTo sock ((Op.broadcast (.newsLeak t dur text)).deliveries s) =
      List.replicate (n + 1) _ := packetsTo_replicate hsock
  rw [hws, hn]
  exact hears_leak client hplays n

/-- What a leak that was fired leaves. -/
theorem outcome_fired {text : Bytes} {ws : List (ℕ × Packet)} (ht : t ∈ leakTags s.market)
    (hws : ws = (Op.broadcast (.newsLeak t dur text)).deliveries s) :
    LeakOutcome s (leakFrozen s t) ws true := by
  obtain ⟨hlist, hmeets, hfresh⟩ := mem_leakTags.1 ht
  exact ⟨t, hlist, hfresh, exists_listing hmeets, rfl, freezeTags_slots _ _,
    fun sock hsock client hplays => hears_sent hws hsock hplays⟩

/-- A leak that was given back left no trace exactly if nobody heard of it and the flags of the
listings with the tag were right. -/
theorem outcome_failed {text : Bytes} {ws : List (ℕ × Packet)} (ht : t ∈ leakTags s.market)
    (hws : ws = (Op.broadcast (.newsLeak t dur text)).deliveries s) :
    LeakOutcome s (leakGivenBack s t) ws false ↔
      clientSockets s.clients = [] ∧ FlagsRight s.market t := by
  obtain ⟨-, -, hfresh⟩ := mem_leakTags.1 ht
  constructor
  · rintro ⟨hmarket, hclients⟩
    refine ⟨List.eq_nil_iff_forall_not_mem.2 fun sock hsock => ?_,
      (unfreeze_freeze hfresh).1 hmarket⟩
    let synced : UiClient := { state := { frozenMask := s.market.frozenTags }, mode := .normal }
    have hplays : synced.mode ≠ .gameOver := nofun
    have hkept := hclients sock hsock synced hplays
    rw [hears_sent hws hsock hplays] at hkept
    exact or_fresh_ne ht hkept
  · rintro ⟨hnone, hright⟩
    refine ⟨(unfreeze_freeze hfresh).2 hright, fun sock hsock => ?_⟩
    rw [hnone] at hsock
    cases hsock

/-- **When a leak leaves no trace**, for every state, all values of `rand` and all failures: exactly
if no tag can be frozen, or the allocation and the thread creation succeed, or nobody is connected
and the flags of the listings with its tag are right. -/
theorem leakTraceless_iff (s : Shared) (choose : ℕ → Choice) :
    LeakTraceless s choose ↔ leakTags s.market = [] ∨
      ((choose 6).ok = true ∧ (choose 7).ok = true) ∨
      (clientSockets s.clients = [] ∧ FlagsRight s.market (leakTag s choose)) := by
  constructor
  · rintro ⟨log, s', fired, hrun, hout⟩
    rcases leak_run hrun with ⟨hnone, -⟩ | ⟨hsome, dur, text, hsent, hend⟩
    · exact .inl hnone
    · rcases hend with ⟨hmalloc, hthread, -⟩ | ⟨-, rfl, ⟨⟩⟩
      · exact .inr (.inl ⟨hmalloc, hthread⟩)
      · exact .inr (.inr ((outcome_failed (leakTag_mem hsome) hsent).1 hout))
  · intro h
    obtain ⟨log, s', out, hrun⟩ := ends_leak s (leakChoices choose) (by simp [leakChoices])
    rcases leak_run hrun with ⟨hnone, rfl, rfl, hsent⟩ | ⟨hsome, dur, text, hsent, hend⟩
    · refine ⟨log, s', false, hrun, rfl, fun sock _ client _ => ?_⟩
      rw [hsent]
      rfl
    · rcases hend with ⟨hmalloc, hthread, rfl, rfl⟩ | ⟨hfails, rfl, rfl⟩
      · exact ⟨log, _, true, hrun, outcome_fired (leakTag_mem hsome) hsent⟩
      · refine ⟨log, _, false, hrun, (outcome_failed (leakTag_mem hsome) hsent).2 ?_⟩
        rcases h with hnone | hok | hquiet
        · exact absurd hnone hsome
        · exact absurd hok hfails
        · exact hquiet

/-- A server with one listing and one connection. -/
def leakStart : Shared where
  files := freshBoot.shared.files
  market := (marketAdd marketInit 1 0 1 tagCustomer 100 []).getD marketInit
  clients := (clientAdd (List.replicate maxClients {}) 4).getD []
  clock := 1

/-- The allocation of a leak fails: the connected client keeps the tag. -/
theorem not_leakTraceless :
    ¬ LeakTraceless leakStart fun i => { ok := decide (i ≠ 6) } := by
  have hsome : leakTags leakStart.market ≠ [] := by decide
  have hconnected : clientSockets leakStart.clients ≠ [] := by decide
  rintro ⟨log, s', fired, hrun, hout⟩
  rcases leak_run hrun with ⟨hnone, -⟩ | ⟨-, dur, text, hsent, hend⟩
  · exact hsome hnone
  · rcases hend with ⟨hmalloc, -⟩ | ⟨-, rfl, ⟨⟩⟩
    · exact absurd hmalloc (by decide)
    · exact hconnected ((outcome_failed (leakTag_mem hsome) hsent).1 hout).1

end UnderFlow
