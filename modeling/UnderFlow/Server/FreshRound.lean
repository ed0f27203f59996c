import Mathlib.Algebra.Order.BigOperators.Group.List
import UnderFlow.Server.Alone
import UnderFlow.Server.Documents
import UnderFlow.Server.Origin

/-!
# What a reset leaves

`trigger_round_reset` alone, and the start of `main`.

* `SetUp` : the files, the boards and the variables as `main` sets them up.
* `Restored` : what becomes of a record.
* `ResetRight` : a reset that runs alone ends, and leaves the game set up; a second one changes
  nothing but the times of the slots.
* `resetRight_reach` : it does in every state of a run.
-/

namespace UnderFlow

variable {s s' s₀ : Shared} {c : Choice} {d : Dir} {fs : Files} {m m' : Market}
  {npcs npcs' : List NPCSlot} {docs : List DocFile} {doc : DocFile} {key : Key}

/-! ### The game as it is set up -/

/-- A slot without its times. -/
def MarketSlot.untimed (slot : MarketSlot) : MarketSlot :=
  { slot with
    spawnTime := 0
    lifespanSec := 0 }

/-- An order without the time it was put up at. -/
def NPCSlot.untimed (npc : NPCSlot) : NPCSlot := { npc with spawnTime := 0 }

/-- The listing of a document. -/
def DocFile.listing (doc : DocFile) : MarketSlot where
  docId := doc.docId
  tags := doc.tags
  basePrice := doc.basePrice
  name := doc.name
  active := true

/-- The order a seed stands for. -/
def seedOrder (n : ℤ × Tags × ℤ) : NPCSlot where
  npcId := n.1
  requiredTags := n.2.1
  bounty := n.2.2
  active := true

/-- The master directory has these documents, and no others. -/
def Filed (docs : List DocFile) (s : Shared) : Prop :=
  s.files.docs (masterDir s.cwd) = (docs.map fun doc => (doc.docId, doc)).reverse

/-- No sandbox has a document. -/
def NoDocs (s : Shared) : Prop := ∀ key : Key, key.Plain →
    s.files.docs (userDir s.cwd key.bytes) = []

/-- The market has these listings in its first slots, none of them frozen, and no others. -/
structure Listed (docs : List DocFile) (m : Market) : Prop where
  slots : m.slots.map MarketSlot.untimed =
    docs.map DocFile.listing ++ List.replicate (maxMarketSlots - docs.length) ({} : MarketSlot)
  frozen : m.frozenTags = 0

/-- The board has these orders in its first slots, and no others. -/
def Ordered (ns : List (ℤ × Tags × ℤ)) (npcs : List NPCSlot) : Prop :=
  npcs.map NPCSlot.untimed = ns.map seedOrder ++ List.replicate (maxNpcSlots - ns.length)
    ({} : NPCSlot)

/-- **The game as `main` sets it up**, apart from the users and the id counters. -/
structure SetUp (s : Shared) : Prop where
  filed : Filed seedDocs s
  empty : NoDocs s
  listed : Listed seedDocs s.market
  ordered : Ordered seedNpcs s.npcs
  round : s.round = {}
  rumor : s.rumor = {}

/-- What becomes of a record: a burned one stays, another one starts anew. -/
def UserRecord.Restored (old new : UserRecord) : Prop :=
  if old.money = -1 then new = old
  else new.key = old.key ∧ new.money = initialMoney ∧ new.inventoryCount = 0 ∧
    new.inventoryDocIds = Vector.replicate maxInvenSize 0

/-- The same game, up to the times of the slots. -/
structure SameGame (s s' : Shared) : Prop where
  users : s'.users = s.users
  master : s'.files.docs (masterDir s'.cwd) = s.files.docs (masterDir s.cwd)
  sandboxes : ∀ key : Key, key.Plain →
    s'.files.docs (userDir s'.cwd key.bytes) = s.files.docs (userDir s.cwd key.bytes)
  listings : s'.market.slots.map MarketSlot.untimed = s.market.slots.map MarketSlot.untimed
  frozen : s'.market.frozenTags = s.market.frozenTags
  orders : s'.npcs.map NPCSlot.untimed = s.npcs.map NPCSlot.untimed
  round : s'.round = s.round
  rumor : s'.rumor = s.rumor

/-- A reset that runs alone, and in which nothing fails, leaves the state `s'`. -/
def ResetAlone (s s' : Shared) (out : Ended Unit) : Prop :=
  ∃ (cs : List Choice) (log : List Made), (∀ c ∈ cs, c.ok = true) ∧
    runAlone triggerRoundReset cs s (.masterPurge .opendir) = some (log, s', out)

/-- **A reset restores the fresh game**, and a second one does the same. -/
structure ResetRight (s : Shared) : Prop where
  /-- Unless a rumor holds its mutex, the reset ends. -/
  ends : s.rumor.locked = false → ∃ n, EndsWithin triggerRoundReset n s (.masterPurge .opendir)
  restores : ∀ s' out, ResetAlone s s' out →
    out = .ok () ∧ SetUp s' ∧ List.Forall₂ UserRecord.Restored s.users s'.users
  twice : ∀ s' out s'' out', ResetAlone s s' out → ResetAlone s' s'' out' → SameGame s' s''

/-- On empty directories, `main` sets the game up before it starts the event thread. -/
def StartSetUp (cwd : Dir) : Prop :=
  ∀ (files : Files) (users : UserDb) (clock : ℕ) (x : Server), (∀ d, files.docs d = []) →
    masterDir cwd ∈ files.dirs →
    server.Reach (fun _ l => (choiceOf l).ok = true) (boot cwd files users clock) x →
    x.threads = [.main .startEvents] → SetUp x.shared

/-! ### The files -/

/-- The documents of the directory are among those that are still to be removed. -/
def Purge.Left (fs : Files) (d : Dir) : Purge → Prop
  | .opendir => True
  | .unlink docId todo => ∀ e ∈ fs.docs d, e.1 ∈ docId :: todo

/-- What a purge does to the state. -/
structure Purged (s s' : Shared) : Prop where
  same : s' = { s with files := s'.files }
  dirs : s'.files.dirs = s.files.dirs
  docs : ∀ d, s'.files.docs d ⊆ s.files.docs d

theorem Purged.docs_nil (h : Purged s s') (hd : s.files.docs d = []) : s'.files.docs d = [] := by
  have hsub := h.docs d
  rw [hd] at hsub
  exact List.subset_nil.1 hsub

theorem readdirOrder_perm (order ids : List ℤ) : (readdirOrder order ids).Perm ids := by
  unfold readdirOrder
  split_ifs with h
  · exact List.isPerm_iff.1 h
  · exact .refl _

/-- **The step of a purge.** -/
theorem purge_step {f : Folder} {pc : Purge} {r : (purgeDocsIn f pc).op.Ret} (hok : c.ok = true)
    (hW : s.files.Housed) (hL : pc.Left s.files (f.dir s.cwd))
    (h : (purgeDocsIn f pc).op.exec s c = some (s', r)) : Purged s s' ∧
      match (purgeDocsIn f pc).next r with
      | .cont pc' => pc'.Left s'.files (f.dir s.cwd)
      | _ => s'.files.docs (f.dir s.cwd) = [] := by
  have hnext : ∀ {ids : List ℤ}, (∀ e ∈ s'.files.docs (f.dir s.cwd), e.1 ∈ ids) →
      match Purge.unlinkNext ids with
      | .cont pc' => pc'.Left s'.files (f.dir s.cwd)
      | _ => s'.files.docs (f.dir s.cwd) = [] := by
    intro ids hids
    cases ids with
    | nil => exact List.eq_nil_iff_forall_not_mem.2 fun e he => by simpa using hids e he
    | cons i ids => exact hids
  cases pc with
  | opendir =>
    simp only [purgeDocsIn, Op.exec, hok, ↓reduceIte, Option.some.injEq] at h
    obtain ⟨rfl, rfl⟩ := h
    refine ⟨⟨rfl, rfl, fun _ => List.Subset.refl _⟩, ?_⟩
    by_cases hdir : f.dir s.cwd ∈ s.files.dirs
    · simp only [purgeDocsIn, Files.opendir, if_pos hdir, Option.map_some]
      refine hnext fun e he => ?_
      exact (readdirOrder_perm _ _).mem_iff.2 (List.mem_map_of_mem he)
    · simp only [purgeDocsIn, Files.opendir, if_neg hdir, Option.map_none]
      exact hW _ hdir
  | unlink i todo =>
    simp only [purgeDocsIn, Op.exec, hok, ↓reduceIte, Option.some.injEq] at h
    obtain ⟨rfl, -⟩ := h
    refine ⟨⟨rfl, Files.dirs_unlink, fun d => ?_⟩, hnext fun e he => ?_⟩
    · show (s.files.unlink _ i).2.docs d ⊆ _
      rw [docs_unlink]
      split_ifs
      · exact List.filter_subset_self _
      · exact List.Subset.refl _
    · change e ∈ (s.files.unlink _ i).2.docs _ at he
      rw [docs_unlink, if_pos rfl, List.mem_filter] at he
      exact (List.mem_cons.1 (hL e he.1)).resolve_left (by simpa using he.2)

/-! ### The seeds -/

/-- The documents and the orders are all there. -/
structure Seeded (s : Shared) : Prop where
  filed : Filed seedDocs s
  listed : Listed seedDocs s.market
  ordered : Ordered seedNpcs s.npcs

/-- How far the seeding has got. -/
def Seed.At (s : Shared) : Seed → Prop
  | .write doc todo => ∃ done, seedDocs = done ++ doc :: todo ∧ Filed done s ∧
      Listed done s.market ∧ Ordered [] s.npcs
  | .add doc todo => ∃ done, seedDocs = done ++ doc :: todo ∧ Filed (done ++ [doc]) s ∧
      Listed done s.market ∧ Ordered [] s.npcs
  | .npc n todo => ∃ done, seedNpcs = done ++ n :: todo ∧ Filed seedDocs s ∧
      Listed seedDocs s.market ∧ Ordered done s.npcs

theorem listed_init : Listed [] marketInit where
  slots := List.map_replicate
  frozen := rfl

theorem ordered_init : Ordered [] npcInit := List.map_replicate

/-- A listing is put up in the next slot. -/
theorem Listed.add (h : Listed docs m) (hlen : docs.length < maxMarketSlots)
    (hname : cstr maxNameLen doc.name = doc.name) (now r : ℕ) :
    ∃ m', marketAdd m now r doc.docId doc.tags doc.basePrice doc.name = some m' ∧
      Listed (docs ++ [doc]) m' := by
  obtain ⟨k, hk⟩ := Nat.exists_eq_add_of_le (Nat.sub_pos_of_lt hlen)
  have hfill : updateFirst (fun slot => !slot.active) (fun _ => doc.listing)
      (m.slots.map MarketSlot.untimed) = (updateFirst (fun slot => !slot.active) (fun _ =>
        { docId := doc.docId
          tags := doc.tags
          basePrice := doc.basePrice
          name := cstr maxNameLen doc.name
          active := true
          isFrozen := doc.tags.meets m.frozenTags
          spawnTime := now
          lifespanSec := marketLifeMinSec + r % (marketLifeMaxSec - marketLifeMinSec + 1) })
        m.slots).map fun p => (p.1.untimed, p.2.map MarketSlot.untimed) := by
    refine updateFirst_map (fun _ => rfl) fun _ => ?_
    rw [h.frozen, meets_zero, hname]
    rfl
  rw [h.slots, hk, Nat.add_comm 1 k, updateFirst_replicate (by simp [DocFile.listing]) rfl] at hfill
  obtain ⟨⟨slot, slots⟩, hu, heq⟩ := Option.map_eq_some_iff.1 hfill.symm
  refine ⟨{ m with slots := slots }, by rw [marketAdd, hu]; rfl, ?_, h.frozen⟩
  have hrest : maxMarketSlots - (docs ++ [doc]).length = k := by
    rw [List.length_append, List.length_singleton]
    omega
  rw [(Prod.mk.inj heq).2, hrest, List.map_append, List.append_assoc]
  rfl

/-- An order is put up in the next slot. -/
theorem Ordered.add {ns : List (ℤ × Tags × ℤ)} {n : ℤ × Tags × ℤ} (h : Ordered ns npcs)
    (hlen : ns.length < maxNpcSlots) (now : ℕ) :
    ∃ npcs', npcAdd npcs now n.1 n.2.1 n.2.2 = some npcs' ∧ Ordered (ns ++ [n]) npcs' := by
  obtain ⟨k, hk⟩ := Nat.exists_eq_add_of_le (Nat.sub_pos_of_lt hlen)
  have hfill : updateFirst (fun npc => !npc.active) (fun _ => seedOrder n)
      (npcs.map NPCSlot.untimed) = (updateFirst (fun npc => !npc.active) (fun _ =>
        { npcId := n.1
          requiredTags := n.2.1
          bounty := n.2.2
          active := true
          spawnTime := now }) npcs).map fun p => (p.1.untimed, p.2.map NPCSlot.untimed) :=
    updateFirst_map (fun _ => rfl) fun _ => rfl
  have hold : ∀ npc ∈ ns.map seedOrder, (!npc.active) = false := by
    intro npc hnpc
    obtain ⟨n', -, rfl⟩ := List.mem_map.1 hnpc
    rfl
  rw [h, hk, Nat.add_comm 1 k, updateFirst_replicate hold rfl] at hfill
  obtain ⟨⟨npc, npcs'⟩, hu, heq⟩ := Option.map_eq_some_iff.1 hfill.symm
  refine ⟨npcs', by rw [npcAdd, hu]; rfl, ?_⟩
  have hrest : maxNpcSlots - (ns ++ [n]).length = k := by
    rw [List.length_append, List.length_singleton]
    omega
  rw [Ordered, (Prod.mk.inj heq).2, hrest, List.map_append, List.append_assoc]
  rfl

/-- One more file in the master directory. -/
theorem Filed.put (h : Filed docs s) (hnew : doc.docId ∉ docs.map (·.docId))
    (hs : s'.files = s.files.put (masterDir s.cwd) doc.docId doc) (hcwd : s'.cwd = s.cwd) :
    Filed (docs ++ [doc]) s' := by
  rw [Filed, hcwd, hs, docs_put, if_pos rfl, h, List.filter_eq_self.2, List.map_append,
    List.reverse_append]
  · rfl
  · intro e he
    obtain ⟨doc', hdoc', rfl⟩ := List.mem_map.1 (List.mem_reverse.1 he)
    refine decide_eq_true fun heq => hnew ?_
    exact List.mem_map.2 ⟨doc', hdoc', heq⟩

/-- What the seeding changes. -/
structure Seeding (s s' : Shared) : Prop where
  same : s' = { s with
    files := s'.files
    market := s'.market
    npcs := s'.npcs }
  dirs : s'.files.dirs = s.files.dirs
  docs : ∀ d, d ≠ masterDir s.cwd → s'.files.docs d = s.files.docs d

/-- **The step of the seeding.** -/
theorem seed_step {pc : Seed} {r : (seedMarketAndNpc pc).op.Ret} (hok : c.ok = true)
    (hmaster : masterDir s.cwd ∈ s.files.dirs) (hA : pc.At s)
    (h : (seedMarketAndNpc pc).op.exec s c = some (s', r)) : Seeding s s' ∧
      match (seedMarketAndNpc pc).next r with
      | .cont pc' => pc'.At s'
      | _ => Seeded s' := by
  cases pc with
  | write doc todo =>
    obtain ⟨done, hdocs, hfiled, hlisted, hordered⟩ := hA
    simp only [seedMarketAndNpc, Op.exec, hok, ↓reduceIte, Files.write, if_pos hmaster,
      Option.some.injEq] at h
    obtain ⟨rfl, rfl⟩ := h
    have hnew : doc.docId ∉ done.map (·.docId) := by
      have hnd : (seedDocs.map (·.docId)).Nodup := by decide
      rw [hdocs, List.map_append, List.map_cons] at hnd
      intro hmem
      exact (List.nodup_append.1 hnd).2.2 _ hmem _ List.mem_cons_self rfl
    refine ⟨⟨rfl, rfl, fun d hd => ?_⟩, done, hdocs, hfiled.put hnew rfl rfl, hlisted, hordered⟩
    exact docs_put.trans (if_neg hd)
  | add doc todo =>
    obtain ⟨done, hdocs, hfiled, hlisted, hordered⟩ := hA
    have hmem : doc ∈ seedDocs := by
      rw [hdocs]
      exact List.mem_append_right _ List.mem_cons_self
    have hlen : done.length < maxMarketSlots := by
      have hlen := congrArg List.length hdocs
      rw [List.length_append, List.length_cons] at hlen
      have hfour : seedDocs.length = 4 := rfl
      have hmax : maxMarketSlots = 32 := rfl
      omega
    have hname : ∀ doc ∈ seedDocs, cstr maxNameLen doc.name = doc.name := by decide +kernel
    obtain ⟨m', hadd, hlisted'⟩ := hlisted.add hlen (hname doc hmem) s.clock (c.rand.getD 0 0)
    simp only [seedMarketAndNpc, Op.exec, hadd, Option.some.injEq] at h
    obtain ⟨rfl, rfl⟩ := h
    refine ⟨⟨rfl, rfl, fun d _ => rfl⟩, ?_⟩
    rcases todo with _ | ⟨doc', todo⟩
    · rw [← hdocs] at hfiled hlisted'
      exact ⟨[], rfl, hfiled, hlisted', hordered⟩
    · exact ⟨done ++ [doc], by rw [hdocs, List.append_assoc]; rfl, hfiled, hlisted', hordered⟩
  | npc n todo =>
    obtain ⟨done, hnpcs, hfiled, hlisted, hordered⟩ := hA
    have hlen : done.length < maxNpcSlots := by
      have hlen := congrArg List.length hnpcs
      rw [List.length_append, List.length_cons] at hlen
      have htwo : seedNpcs.length = 2 := rfl
      have hmax : maxNpcSlots = 16 := rfl
      omega
    obtain ⟨npcs', hadd, hordered'⟩ := hordered.add (n := n) hlen s.clock
    simp only [seedMarketAndNpc, Op.exec, hadd, Option.some.injEq] at h
    obtain ⟨rfl, rfl⟩ := h
    refine ⟨⟨rfl, rfl, fun d _ => rfl⟩, ?_⟩
    rcases todo with _ | ⟨n', todo⟩
    · rw [← hnpcs] at hordered'
      exact ⟨hfiled, hlisted, hordered'⟩
    · exact ⟨done ++ [n], by rw [hnpcs, List.append_assoc]; rfl, hfiled, hlisted, hordered'⟩

/-! ### The reset -/

/-- Documents are in directories that exist, and the master directory does. -/
structure Ready (s : Shared) : Prop where
  housed : s.files.Housed
  master : masterDir s.cwd ∈ s.files.dirs

theorem Ready.step {o : Op} {r : o.Ret} (h : Ready s) (hr : o.exec s c = some (s', r)) :
    Ready s' where
  housed := housed_step h.housed hr
  master := by
    rw [(exec_frame hr).cwd]
    exact dirs_subset hr h.master

/-- The records start anew, and the sandboxes are empty. -/
structure Wiped (s₀ s : Shared) : Prop where
  users : s.users = userdbResetRound s₀.users initialMoney
  empty : NoDocs s

/-- How far the reset has got. -/
def Reset.At (s₀ s : Shared) : Reset → Prop
  | .masterPurge pc => s.users = s₀.users ∧ pc.Left s.files (masterDir s.cwd)
  | .users => s.users = s₀.users ∧ Filed [] s
  | .userPurge name todo pc => s.users = s₀.users ∧ Filed [] s ∧
      pc.Left s.files (userDir s.cwd name) ∧ ∀ key : Key, key.Plain → key.bytes ∉ name :: todo →
        s.files.docs (userDir s.cwd key.bytes) = []
  | .records => s.users = s₀.users ∧ Filed [] s ∧ NoDocs s
  | .market => Wiped s₀ s ∧ Filed [] s
  | .npcs => Wiped s₀ s ∧ Filed [] s ∧ Listed [] s.market
  | .round => Wiped s₀ s ∧ Filed [] s ∧ Listed [] s.market ∧ Ordered [] s.npcs
  | .rumor => Wiped s₀ s ∧ Filed [] s ∧ Listed [] s.market ∧ Ordered [] s.npcs ∧ s.round = {}
  | .seed pc => Wiped s₀ s ∧ pc.At s ∧ s.round = {} ∧ s.rumor = {}
  | _ => Wiped s₀ s ∧ SetUp s

/-- What holds while the reset runs. -/
structure Resetting (s₀ s : Shared) (pc : Reset) : Prop where
  ready : Ready s
  point : pc.At s₀ s

/-- What holds when the reset is over. -/
structure ResetOver (s₀ s : Shared) (out : Ended Unit) : Prop where
  out : out = .ok ()
  ready : Ready s
  wiped : Wiped s₀ s
  setUp : SetUp s

/-- The sandbox of a plain key is an entry of `USERS_DIR`. -/
theorem mem_userEntries {cwd : Dir} (hkey : key.Plain) (hdir : userDir cwd key.bytes ∈ fs.dirs) :
    key.bytes ∈ fs.userEntries cwd := by
  rw [userDir_plain cwd hkey] at hdir
  refine List.mem_filterMap.2 ⟨_, hdir, ?_⟩
  rw [if_pos List.dropLast_concat, List.getLast?_concat]

theorem point_userNext {names : List Bytes} (husers : s.users = s₀.users) (hfiled : Filed [] s)
    (hrest : ∀ key : Key, key.Plain → key.bytes ∉ names →
      s.files.docs (userDir s.cwd key.bytes) = []) : (Reset.userNext names).At s₀ s := by
  cases names with
  | nil => exact ⟨husers, hfiled, fun key hkey => hrest key hkey List.not_mem_nil⟩
  | cons name todo => exact ⟨husers, hfiled, trivial, hrest⟩

/-- **The step of the reset.** -/
theorem reset_step {pc : Reset} {r : (triggerRoundReset pc).op.Ret} (hok : c.ok = true)
    (hR : Resetting s₀ s pc) (h : (triggerRoundReset pc).op.exec s c = some (s', r)) :
    ((triggerRoundReset pc).next r).Leaves (Resetting s₀) (ResetOver s₀) s' := by
  have hready := hR.ready.step h
  have hA := hR.point
  cases pc with
  | masterPurge q =>
    obtain ⟨husers, hleft⟩ := hA
    obtain ⟨hpurged, hnext⟩ := purge_step (f := .master) hok hR.ready.housed hleft h
    have hs := hpurged.same
    split at hnext
    · rename_i q' hq'
      simp only [triggerRoundReset, Action.map, hq']
      exact ⟨hready, by rw [hs]; exact ⟨husers, hnext⟩⟩
    · rename_i hno
      simp only [triggerRoundReset, Action.map]
      -- the master directory is empty now
      have hdone : Reset.At s₀ s' .users := by
        rw [hs]
        exact ⟨husers, hnext⟩
      rcases hq' : (purgeDocsIn .master q).next r with q' | _ | _
      · exact absurd hq' (hno q')
      · exact ⟨hready, hdone⟩
      · exact ⟨hready, hdone⟩
  | users =>
    obtain ⟨husers, hfiled⟩ := hA
    simp only [triggerRoundReset, Op.exec, hok, ↓reduceIte, Option.some.injEq] at h
    obtain ⟨rfl, rfl⟩ := h
    -- a sandbox the listing of `users` does not name is empty, for its directory is missing
    refine ⟨hready, point_userNext husers hfiled fun key hkey hno => hready.housed _ fun hdir => ?_⟩
    exact hno (mem_userEntries hkey hdir)
  | userPurge name todo q =>
    obtain ⟨husers, hfiled, hleft, hrest⟩ := hA
    obtain ⟨hpurged, hnext⟩ := purge_step (f := .entry name) hok hR.ready.housed hleft h
    have hs := hpurged.same
    have hfiled' : Filed [] s' := by
      rw [Filed, hs]
      exact hpurged.docs_nil hfiled
    have hrest' : ∀ key : Key, key.Plain → key.bytes ∉ name :: todo →
        s'.files.docs (userDir s'.cwd key.bytes) = [] := by
      intro key hkey hno
      rw [hs]
      exact hpurged.docs_nil (hrest key hkey hno)
    have husers' : s'.users = s₀.users := by
      rw [hs]
      exact husers
    have hcwd : s'.cwd = s.cwd := by rw [hs]
    split at hnext
    · rename_i q' hq'
      simp only [triggerRoundReset, Action.map, hq']
      exact ⟨hready, husers', hfiled', by rw [hcwd]; exact hnext, hrest'⟩
    · rename_i hno
      simp only [triggerRoundReset, Action.map]
      have hdone : (Reset.userNext todo).At s₀ s' := by
        refine point_userNext husers' hfiled' fun key hkey hnot => ?_
        -- the sandbox just purged, or one purged before
        by_cases hname : key.bytes = name
        · rw [hcwd, hname]
          exact hnext
        · refine hrest' key hkey fun hmem => ?_
          exact (List.mem_cons.1 hmem).elim hname hnot
      rcases hq' : (purgeDocsIn (.entry name) q).next r with q' | _ | _
      · exact absurd hq' (hno q')
      · exact ⟨hready, hdone⟩
      · exact ⟨hready, hdone⟩
  | records =>
    obtain ⟨husers, hfiled, hempty⟩ := hA
    simp only [triggerRoundReset, Op.exec, hok, ↓reduceIte, Option.some.injEq] at h
    obtain ⟨rfl, -⟩ := h
    exact ⟨hready, ⟨by rw [husers], hempty⟩, hfiled⟩
  | market =>
    obtain ⟨⟨husers, hempty⟩, hfiled⟩ := hA
    cases h
    exact ⟨hready, ⟨husers, hempty⟩, hfiled, listed_init⟩
  | npcs =>
    obtain ⟨⟨husers, hempty⟩, hfiled, hlisted⟩ := hA
    cases h
    exact ⟨hready, ⟨husers, hempty⟩, hfiled, hlisted, ordered_init⟩
  | round =>
    obtain ⟨⟨husers, hempty⟩, hfiled, hlisted, hordered⟩ := hA
    cases h
    exact ⟨hready, ⟨husers, hempty⟩, hfiled, hlisted, hordered, rfl⟩
  | rumor =>
    obtain ⟨⟨husers, hempty⟩, hfiled, hlisted, hordered, hround⟩ := hA
    simp only [triggerRoundReset, Op.exec] at h
    split_ifs at h
    cases h
    exact ⟨hready, ⟨husers, hempty⟩, ⟨[], rfl, hfiled, hlisted, hordered⟩, hround, rfl⟩
  | seed q =>
    obtain ⟨⟨husers, hempty⟩, hseed, hround, hrumor⟩ := hA
    obtain ⟨hseeding, hnext⟩ := seed_step hok hR.ready.master hseed h
    have hs := hseeding.same
    have hwiped : Wiped s₀ s' := by
      refine ⟨by rw [hs]; exact husers, fun key hkey => ?_⟩
      rw [hs]
      exact (hseeding.docs _ (userDir_ne_masterDir hkey)).trans (hempty key hkey)
    have hround' : s'.round = {} := by
      rw [hs]
      exact hround
    have hrumor' : s'.rumor = {} := by
      rw [hs]
      exact hrumor
    split at hnext
    · rename_i q' hq'
      simp only [triggerRoundReset, Action.map, hq']
      exact ⟨hready, hwiped, hnext, hround', hrumor'⟩
    · rename_i hno
      simp only [triggerRoundReset, Action.map]
      have hdone : Reset.At s₀ s' .marker :=
        ⟨hwiped, hnext.filed, hwiped.empty, hnext.listed, hnext.ordered, hround', hrumor'⟩
      rcases hq' : (seedMarketAndNpc q).next r with q' | _ | _
      · exact absurd hq' (hno q')
      · exact ⟨hready, hdone⟩
      · exact ⟨hready, hdone⟩
  | marker =>
    cases h
    exact ⟨hready, hA⟩
  | marketSnapshot =>
    cases h
    simp only [triggerRoundReset]
    cases marketSnapshot s.market maxMarketSlots <;> exact ⟨hready, hA⟩
  | marketSend slot todo =>
    cases h
    cases todo <;> exact ⟨hready, hA⟩
  | npcSnapshot =>
    cases h
    simp only [triggerRoundReset]
    cases npcSnapshot s.npcs maxNpcSlots with
    | nil => exact ⟨rfl, hready, hA.1, hA.2⟩
    | cons npc todo => exact ⟨hready, hA⟩
  | npcSend npc todo =>
    cases h
    cases todo with
    | nil => exact ⟨rfl, hready, hA.1, hA.2⟩
    | cons npc' todo => exact ⟨hready, hA⟩

/-- **A reset that runs alone** leaves the game as it was set up. -/
theorem resetOver_of_alone {out : Ended Unit} (hs : Ready s) (h : ResetAlone s s' out) :
    ResetOver s s' out := by
  obtain ⟨cs, log, hok, hrun⟩ := h
  have hstart : Resetting s s (.masterPurge .opendir) := ⟨hs, rfl, trivial⟩
  exact runAlone_invariant (fun s₁ pc c s₂ r hI hc hexec => reset_step hc hI hexec) hstart hok hrun

/-! ### The reset ends -/

/-- The operations left in a purge of a directory with `n` documents. -/
def Purge.cost (n : ℕ) : Purge → ℕ
  | .opendir => n + 2
  | .unlink _ todo => todo.length + 1

/-- The steps the seeding still takes. -/
def Seed.cost : Seed → ℕ
  | .write _ todo => 2 * todo.length + seedNpcs.length + 2
  | .add _ todo => 2 * todo.length + seedNpcs.length + 1
  | .npc _ todo => todo.length + 1

/-- What the purges of these sandboxes cost. -/
def sandboxesCost (s : Shared) (names : List Bytes) : ℕ :=
  (names.map fun name => (s.files.docs (userDir s.cwd name)).length + 2).sum

/-- The operations left, up to a constant for each phase. -/
def Reset.cost (s : Shared) : Reset → ℕ
  | .npcSend _ todo => todo.length + 1
  | .npcSnapshot => 17
  | .marketSend _ todo => todo.length + 18
  | .marketSnapshot => 50
  | .marker => 51
  | .seed pc => pc.cost + 51
  | .rumor => 62
  | .round => 63
  | .npcs => 64
  | .market => 65
  | .records => 66
  | .userPurge name todo pc =>
    pc.cost (s.files.docs (userDir s.cwd name)).length + sandboxesCost s todo + 66
  | .users => sandboxesCost s (s.files.userEntries s.cwd) + 67
  | .masterPurge pc =>
    pc.cost (s.files.docs (masterDir s.cwd)).length + sandboxesCost s
      (s.files.userEntries s.cwd) + 67

theorem cost_unlinkNext {n : ℕ} {ids : List ℤ} {q' : Purge} (h : Purge.unlinkNext ids = .cont q') :
    q'.cost n = ids.length := by
  cases ids with
  | nil => cases h
  | cons i ids =>
    cases h
    rfl

/-- A purge goes on with one operation less. -/
theorem purge_cost (f : Folder) (pc : Purge) (s : Shared) (c : Choice) :
    ∃ s' r, (purgeDocsIn f pc).op.exec s c = some (s', r) ∧ Purged s s' ∧
      (∀ d, (s'.files.docs d).length ≤ (s.files.docs d).length) ∧
      ∀ q', (purgeDocsIn f pc).next r = .cont q' →
        q'.cost (s'.files.docs (f.dir s.cwd)).length <
          pc.cost (s.files.docs (f.dir s.cwd)).length := by
  have hsame : Purged s s := ⟨rfl, rfl, fun _ => List.Subset.refl _⟩
  cases pc with
  | opendir =>
    refine ⟨s, _, rfl, hsame, fun _ => le_rfl, fun q' hq' => ?_⟩
    rcases hids : (if c.ok then (s.files.opendir (f.dir s.cwd)).map (readdirOrder c.order)
      else none) with _ | ids <;> simp only [purgeDocsIn, hids] at hq'
    · cases hq'
    · rw [cost_unlinkNext hq']
      split_ifs at hids
      obtain ⟨ids', hopen, rfl⟩ := Option.map_eq_some_iff.1 hids
      rw [(readdirOrder_perm _ _).length_eq]
      simp only [Files.opendir] at hopen
      split_ifs at hopen
      cases hopen
      rw [List.length_map, Purge.cost]
      omega
  | unlink i todo =>
    have hcost : ∀ {n m : ℕ} {q' : Purge}, Purge.unlinkNext todo = .cont q' →
        q'.cost n < (Purge.unlink i todo).cost m := by
      intro n m q' hq'
      rw [cost_unlinkNext hq']
      exact Nat.lt_succ_self _
    by_cases hok : c.ok = true
    · refine ⟨{ s with files := (s.files.unlink (f.dir s.cwd) i).2 }, _, if_pos hok,
        ?_, fun d => ?_,
        fun q' hq' => hcost hq'⟩
      · refine ⟨rfl, Files.dirs_unlink, fun d => ?_⟩
        rw [docs_unlink]
        split_ifs
        · exact List.filter_subset_self _
        · exact List.Subset.refl _
      · rw [docs_unlink]
        split_ifs
        · exact List.length_filter_le _ _
        · exact le_rfl
    · exact ⟨s, none, if_neg hok, hsame, fun _ => le_rfl, fun q' hq' => hcost hq'⟩

theorem sandboxesCost_le (hcwd : s'.cwd = s.cwd)
    (hle : ∀ d, (s'.files.docs d).length ≤ (s.files.docs d).length) (names : List Bytes) :
    sandboxesCost s' names ≤ sandboxesCost s names := by
  refine List.sum_le_sum fun name _ => ?_
  rw [hcwd]
  exact Nat.add_le_add_right (hle _) 2

theorem cost_userNext (s : Shared) (names : List Bytes) :
    (Reset.userNext names).cost s = sandboxesCost s names + 66 := by
  cases names with
  | nil => rfl
  | cons name todo =>
    simp only [Reset.userNext, Reset.cost, Purge.cost, sandboxesCost, List.map_cons, List.sum_cons]

/-- A seeding goes on with one operation less. -/
theorem seed_cost (pc : Seed) (s : Shared) (c : Choice) :
    ∃ s' r, (seedMarketAndNpc pc).op.exec s c = some (s', r) ∧ s'.rumor = s.rumor ∧
      ∀ q', (seedMarketAndNpc pc).next r = .cont q' → q'.cost < pc.cost := by
  have hexec : ∃ s' r, (seedMarketAndNpc pc).op.exec s c = some (s', r) := by
    cases pc <;> simp only [seedMarketAndNpc, Op.exec] <;> split <;> exact ⟨_, _, rfl⟩
  obtain ⟨s', r, hr⟩ := hexec
  have hstore : (seedMarketAndNpc pc).op.store ≠ some .rumor := by
    cases pc <;> rintro ⟨⟩
  refine ⟨s', r, hr, (exec_frame hr).rumor hstore, fun q' hq' => ?_⟩
  cases pc with
  | write doc todo =>
    cases hq'
    exact Nat.lt_succ_self _
  | add doc todo =>
    cases todo with
    | nil =>
      cases hq'
      exact (by decide : 2 < 3)
    | cons doc' todo =>
      cases hq'
      simp only [Seed.cost, List.length_cons]
      omega
  | npc n todo =>
    cases todo with
    | nil => cases hq'
    | cons n' todo =>
      cases hq'
      exact Nat.lt_succ_self _

/-- The reset goes on with one operation less, unless a rumor holds its mutex. -/
theorem reset_cost (pc : Reset) (s : Shared) (hfree : s.rumor.locked = false) (c : Choice) :
    ∃ s' r, (triggerRoundReset pc).op.exec s c = some (s', r) ∧
      ∀ pc', (triggerRoundReset pc).next r = .cont pc' →
        s'.rumor.locked = false ∧ pc'.cost s' < pc.cost s := by
  cases pc with
  | masterPurge q =>
    obtain ⟨s', r, hr, hpurged, hle, hcost⟩ := purge_cost .master q s c
    have hs := hpurged.same
    have hcwd : s'.cwd = s.cwd := by rw [hs]
    have hfree' : s'.rumor.locked = false := by
      rw [hs]
      exact hfree
    have hnames : s'.files.userEntries s.cwd = s.files.userEntries s.cwd := by
      rw [Files.userEntries, hpurged.dirs]
      rfl
    -- a purge takes files away only, so the sandboxes still to come cost no more than before
    have hboxes := sandboxesCost_le hcwd hle (s.files.userEntries s.cwd)
    refine ⟨s', r, hr, fun pc' hpc' => ?_⟩
    simp only [triggerRoundReset, Action.map] at hpc'
    split at hpc' <;> cases hpc'
    · rename_i q' hq'
      have hlt := hcost q' hq'
      refine ⟨hfree', ?_⟩
      simp only [Reset.cost, hcwd, hnames]
      change q'.cost (s'.files.docs (masterDir s.cwd)).length <
        q.cost (s.files.docs (masterDir s.cwd)).length at hlt
      omega
    · refine ⟨hfree', ?_⟩
      simp only [Reset.cost, hcwd, hnames]
      have hpos : 0 < q.cost (s.files.docs (masterDir s.cwd)).length := by
        cases q <;> exact Nat.succ_pos _
      omega
  | users =>
    refine ⟨s, _, rfl, fun pc' hpc' => ?_⟩
    cases hpc'
    refine ⟨hfree, ?_⟩
    rw [cost_userNext, Reset.cost]
    split_ifs
    · exact Nat.lt_succ_self _
    · simp only [sandboxesCost, List.map_nil, List.sum_nil]
      omega
  | userPurge name todo q =>
    obtain ⟨s', r, hr, hpurged, hle, hcost⟩ := purge_cost (.entry name) q s c
    have hs := hpurged.same
    have hcwd : s'.cwd = s.cwd := by rw [hs]
    have hfree' : s'.rumor.locked = false := by
      rw [hs]
      exact hfree
    have hboxes := sandboxesCost_le hcwd hle todo
    refine ⟨s', r, hr, fun pc' hpc' => ?_⟩
    simp only [triggerRoundReset, Action.map] at hpc'
    split at hpc' <;> cases hpc'
    · rename_i q' hq'
      have hlt := hcost q' hq'
      refine ⟨hfree', ?_⟩
      simp only [Reset.cost, hcwd]
      change q'.cost (s'.files.docs (userDir s.cwd name)).length <
        q.cost (s.files.docs (userDir s.cwd name)).length at hlt
      omega
    · refine ⟨hfree', ?_⟩
      rw [cost_userNext, Reset.cost]
      have hpos : 0 < q.cost (s.files.docs (userDir s.cwd name)).length := by
        cases q <;> exact Nat.succ_pos _
      omega
  | records =>
    by_cases hok : c.ok = true
    · refine ⟨_, true, if_pos hok, fun pc' hpc' => ?_⟩
      cases hpc'
      exact ⟨hfree, Nat.lt_succ_self _⟩
    · refine ⟨s, false, if_neg hok, fun pc' hpc' => ?_⟩
      cases hpc'
      exact ⟨hfree, Nat.lt_succ_self _⟩
  | market | npcs | round | marker =>
    refine ⟨_, (), rfl, fun pc' hpc' => ?_⟩
    cases hpc'
    exact ⟨hfree, Nat.lt_succ_self _⟩
  | rumor =>
    refine ⟨_, (), if_neg (by rw [hfree]; exact Bool.false_ne_true), fun pc' hpc' => ?_⟩
    cases hpc'
    exact ⟨rfl, (by decide : 61 < 62)⟩
  | seed q =>
    obtain ⟨s', r, hr, hrumor, hcost⟩ := seed_cost q s c
    refine ⟨s', r, hr, fun pc' hpc' => ?_⟩
    simp only [triggerRoundReset, Action.map] at hpc'
    split at hpc' <;> cases hpc'
    · rename_i q' hq'
      exact ⟨by rw [hrumor]; exact hfree, Nat.add_lt_add_right (hcost q' hq') 51⟩
    · refine ⟨by rw [hrumor]; exact hfree, ?_⟩
      have hpos : 0 < q.cost := by cases q <;> exact Nat.succ_pos _
      simp only [Reset.cost]
      omega
  | marketSnapshot =>
    refine ⟨s, _, rfl, fun pc' hpc' => ?_⟩
    -- the bounds of the boards bound the broadcasts
    have hlen : (marketSnapshot s.market maxMarketSlots).length ≤ 32 := List.length_take_le _ _
    simp only [triggerRoundReset] at hpc'
    rcases hslots : marketSnapshot s.market maxMarketSlots with _ | ⟨slot, todo⟩ <;>
      rw [hslots] at hpc' hlen <;> cases hpc'
    · exact ⟨hfree, by simp [Reset.cost, Reset.marketSendNext]⟩
    · refine ⟨hfree, ?_⟩
      simp only [Reset.cost, Reset.marketSendNext]
      rw [List.length_cons] at hlen
      omega
  | marketSend slot todo =>
    refine ⟨s, (), rfl, fun pc' hpc' => ?_⟩
    cases todo <;> cases hpc'
    · exact ⟨hfree, by simp [Reset.cost, Reset.marketSendNext]⟩
    · exact ⟨hfree, Nat.lt_succ_self _⟩
  | npcSnapshot =>
    refine ⟨s, _, rfl, fun pc' hpc' => ?_⟩
    have hlen : (npcSnapshot s.npcs maxNpcSlots).length ≤ 16 := List.length_take_le _ _
    simp only [triggerRoundReset] at hpc'
    rcases hnpcs : npcSnapshot s.npcs maxNpcSlots with _ | ⟨npc, todo⟩ <;>
      rw [hnpcs] at hpc' hlen <;> cases hpc'
    refine ⟨hfree, ?_⟩
    simp only [Reset.cost]
    rw [List.length_cons] at hlen
    omega
  | npcSend npc todo =>
    refine ⟨s, (), rfl, fun pc' hpc' => ?_⟩
    cases todo <;> cases hpc'
    exact ⟨hfree, Nat.lt_succ_self _⟩

/-! ### The start of `main` -/

/-- How far `main` has got. -/
def Main.At (s : Shared) : Main → Prop
  | .marketInit => Filed [] s ∧ NoDocs s ∧ s.round = {} ∧ s.rumor = {}
  | .npcInit => Filed [] s ∧ NoDocs s ∧ s.round = {} ∧ s.rumor = {} ∧ Listed [] s.market
  | .seed pc => pc.At s ∧ NoDocs s ∧ s.round = {} ∧ s.rumor = {}
  | .startEvents => SetUp s
  | _ => True

/-- **The step of `main`** while it sets the game up. -/
theorem main_at {pc : Main} {a : Action Thread} {r : a.op.Ret} (hok : c.ok = true) (hs : Ready s)
    (hA : pc.At s) (ha : (Thread.main pc).action = some a) (h : a.op.exec s c = some (s', r)) :
    ∀ pc', a.next r = .main pc' → pc'.At s' := by
  intro pc' hpc'
  cases ha
  cases pc with
  | marketInit =>
    obtain ⟨hfiled, hempty, hround, hrumor⟩ := hA
    cases h
    cases hpc'
    exact ⟨hfiled, hempty, hround, hrumor, listed_init⟩
  | npcInit =>
    obtain ⟨hfiled, hempty, hround, hrumor, hlisted⟩ := hA
    cases h
    cases hpc'
    exact ⟨⟨[], rfl, hfiled, hlisted, ordered_init⟩, hempty, hround, hrumor⟩
  | seed q =>
    obtain ⟨hseed, hempty, hround, hrumor⟩ := hA
    obtain ⟨hseeding, hnext⟩ := seed_step hok hs.master hseed h
    have hsame := hseeding.same
    have hempty' : NoDocs s' := by
      intro key hkey
      rw [hsame]
      exact (hseeding.docs _ (userDir_ne_masterDir hkey)).trans (hempty key hkey)
    have hround' : s'.round = {} := by
      rw [hsame]
      exact hround
    have hrumor' : s'.rumor = {} := by
      rw [hsame]
      exact hrumor
    simp only [Action.map, mainThread] at hpc'
    split at hnext
    · rename_i q' hq'
      rw [hq'] at hpc'
      cases hpc'
      exact ⟨hnext, hempty', hround', hrumor'⟩
    · rename_i hno
      have hdone : SetUp s' :=
        ⟨hnext.filed, hempty', hnext.listed, hnext.ordered, hround', hrumor'⟩
      rcases hq' : (seedMarketAndNpc q).next r with q' | _ | _ <;> rw [hq'] at hpc'
      · exact absurd hq' (hno q')
      · cases hpc'
        exact hdone
      · cases hpc'
        exact hdone
  | startEvents | add sock =>
    simp only [Action.map, mainThread] at hpc'
    split_ifs at hpc' <;> cases hpc' <;> trivial
  | accept | reject sock =>
    cases hpc'
    trivial

theorem startSetUp (cwd : Dir) : StartSetUp cwd := by
  intro files users clock x hdocs hmaster hx hthreads
  have hI : Ready x.shared ∧ ∀ pc, x.threads = [.main pc] → pc.At x.shared := by
    refine hx.invariant (I := fun p => Ready p.shared ∧ ∀ pc, p.threads = [.main pc] →
      pc.At p.shared) ⟨⟨fun d _ => hdocs d, hmaster⟩, fun pc hpc => ?_⟩ fun p l p' _ hI hok hn => ?_
    · cases hpc
      exact ⟨hdocs _, fun key _ => hdocs _, rfl, rfl⟩
    · obtain ⟨hready, hat⟩ := hI
      cases l with
      | env seconds =>
        obtain rfl := Pool.next_env.1 hn
        refine ⟨⟨hready.housed, hready.master⟩, fun pc hpc => ?_⟩
        have h := hat pc hpc
        cases pc with
        | seed q => cases q <;> exact h
        | startEvents => exact ⟨h.filed, h.empty, h.listed, h.ordered, h.round, h.rumor⟩
        | _ => exact h
      | run t c =>
        obtain ⟨th, a, r, hth, ha, hr, hths⟩ := server_run hn
        refine ⟨hready.step hr, fun pc hpc => ?_⟩
        rw [hths] at hpc
        -- a single thread is left, so it has run alone
        obtain ⟨hone, hnext, -⟩ : p.threads.length = 1 ∧ a.next r = .main pc ∧ t = 0 := by
          have hlen := congrArg List.length hpc
          have hlt := (List.getElem?_eq_some_iff.1 hth).1
          rw [List.length_append, List.length_set, List.length_singleton] at hlen
          have ht : t = 0 := by omega
          subst ht
          obtain ⟨th', hp⟩ := List.length_eq_one_iff.1 (by omega : p.threads.length = 1)
          rw [hp] at hpc
          exact ⟨by omega, (List.cons.inj hpc).1, rfl⟩
        obtain ⟨th', hp⟩ := List.length_eq_one_iff.1 hone
        rw [hp] at hth
        obtain rfl : th' = th := by
          have hmem := List.mem_of_getElem? hth
          exact (List.mem_singleton.1 hmem).symm
        have ho := thread_origin ha ⟨r, hr, rfl⟩
        rw [hnext] at ho
        obtain ⟨pc₀, rfl, -⟩ := ho
        exact main_at hok hready (hat pc₀ hp) ha hr pc hnext
  exact hI.2 _ hthreads

/-! ### Every reset makes a fresh round -/

theorem ready_reach {cwd : Dir} {files : Files} {users : UserDb} {clock : ℕ} {p : Server}
    (hfiles : files.Housed) (hmaster : masterDir cwd ∈ files.dirs)
    (hp : server.Reach System.anyStep (boot cwd files users clock) p) : Ready p.shared := by
  refine hp.invariant (I := fun p => Ready p.shared) ⟨hfiles, hmaster⟩ fun p l p' _ hI _ hn => ?_
  rcases server_step_cases hn with ⟨o, r, -, hr⟩ | ⟨-, seconds, hs⟩
  · exact hI.step hr
  · rw [hs]
    exact ⟨hI.housed, hI.master⟩

theorem restored_reset (users : UserDb) :
    List.Forall₂ UserRecord.Restored users (userdbResetRound users initialMoney) := by
  refine List.forall₂_map_right_iff.2 (List.forall₂_same.2 fun rec _ => ?_)
  rw [UserRecord.Restored]
  split_ifs with hburned
  · exact reset_of_burned hburned
  · rw [UserRecord.reset, if_pos hburned]
    exact ⟨rfl, rfl, rfl, rfl⟩

theorem reset_reset (users : UserDb) :
    userdbResetRound (userdbResetRound users initialMoney) initialMoney =
      userdbResetRound users initialMoney := by
  rw [userdbResetRound, userdbResetRound, List.map_map]
  refine List.map_congr_left fun rec _ => ?_
  rw [Function.comp_apply, UserRecord.reset, UserRecord.reset]
  split_ifs <;> rfl

/-- **What a reset does** in a state in which documents are in directories. -/
theorem resetRight_of_ready (hs : Ready s) : ResetRight s where
  ends hfree := ⟨_, endsWithin_of_cost (I := fun s _ => s.rumor.locked = false)
    (fun s pc hfree c => reset_cost pc s hfree c) hfree⟩
  restores s' out h := by
    have hover := resetOver_of_alone hs h
    exact ⟨hover.out, hover.setUp, hover.wiped.users ▸ restored_reset s.users⟩
  twice s' out s'' out' h h' := by
    have hover := resetOver_of_alone hs h
    have hover' := resetOver_of_alone hover.ready h'
    exact
      { users := by rw [hover'.wiped.users, hover.wiped.users, reset_reset]
        master := hover'.setUp.filed.trans hover.setUp.filed.symm
        sandboxes := fun key hkey =>
          (hover'.setUp.empty key hkey).trans (hover.setUp.empty key hkey).symm
        listings := hover'.setUp.listed.slots.trans hover.setUp.listed.slots.symm
        frozen := hover'.setUp.listed.frozen.trans hover.setUp.listed.frozen.symm
        orders := hover'.setUp.ordered.trans hover.setUp.ordered.symm
        round := hover'.setUp.round.trans hover.setUp.round.symm
        rumor := hover'.setUp.rumor.trans hover.setUp.rumor.symm }

/-- **A reset restores the fresh game**, in every state of a run; it is the game that `main` sets
up. -/
theorem resetRight_reach {cwd : Dir} {files : Files} {users : UserDb} {clock : ℕ} {p : Server}
    (hfiles : files.Housed) (hmaster : masterDir cwd ∈ files.dirs)
    (hp : server.Reach System.anyStep (boot cwd files users clock) p) :
    ResetRight p.shared ∧ StartSetUp cwd :=
  ⟨resetRight_of_ready (ready_reach hfiles hmaster hp), startSetUp cwd⟩

/-- Alice buys a document. -/
def boughtScript : List Label :=
  startUp ++ connect 5 ++ logIn 2 (Key.ofBytes (utf8 "alice")) ++ receive 2 (.buy 47) :: steps 2 8

/-- A run in which there is something to reset. -/
theorem resetRight_alice : ∃ p, server.Reach System.anyStep freshBoot p ∧
    p.shared.users.map (·.money) = [200] ∧ ResetRight p.shared ∧ StartSetUp [] := by
  obtain ⟨p, hp, hf⟩ := server.exists_reach_of_any System.anyStep freshBoot boughtScript
    (fun p => p.shared.users.map (·.money) == [200]) (by decide +kernel)
  exact ⟨p, hp, eq_of_beq hf, resetRight_reach (fun _ _ => rfl) List.mem_cons_self hp⟩

end UnderFlow
