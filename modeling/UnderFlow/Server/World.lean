import UnderFlow.Server.Clerks
import UnderFlow.Server.FreshRound

/-!
# Restarts on one data directory

The server is started, played on and started again on the same files, each operation executed as one
step.

* `world` : starts, logins, the event thread, the trades and resets, with a record of the operations
  made.
* `UniqueIds` : no two live documents share an id.
* `Made.Overwrites` : an operation that writes over a document.
* `WorldGuard` : an id that is given out is not in use.
* `uniqueIds_of_guard` : then ids are unique, and nothing is overwritten.
* `not_uniqueIds` : a document of Alice is listed again when the server is restarted.
-/

namespace UnderFlow

variable {s s' s₀ : Shared} {c : Choice} {cs : List Choice} {o : Op} {d : ℤ} {key : Key}
  {α β : Type} {prog : α → Action (Next α β)} {pc : α} {log : List Made} {out : Ended β}

/-! ### The world -/

/-- What happens to the server, one call at a time. -/
inductive WorldOp where
  /-- The server is started, on the files and records it finds. -/
  | start
  | login (sock : ℕ)
  | spawn
  | age
  | freeze (tags : Tags)
  | unfreeze (tags : Tags)
  | buy (sock : ℕ) (key : Key) (docId : ℤ)
  | sell (sock : ℕ) (key : Key) (npcId : ℤ) (docIds : List ℤ)
  | dispose (sock : ℕ) (key : Key) (docId : ℤ)
  | reset
  /-- Some seconds pass. -/
  | wait (seconds : ℕ)

/-- `main`, up to the start of the event thread. -/
def mainSetUp (pc : Main) : Action (Next Main) :=
  (mainThread pc).map fun
    | .cont .startEvents => .ret ()
    | n => n

/-- The operations a program makes alone, and the state it leaves. -/
def aloneStep (prog : α → Action (Next α β)) (cs : List Choice) (s : Shared) (pc : α) :
    Option (List Made × Shared) := (runAlone prog cs s pc).map fun x => (x.1, x.2.1)

/-- What happens in one step, with the choices of its operations. -/
def worldStep (s : Shared) (cs : List Choice) : WorldOp → Option (List Made × Shared)
  | .start => aloneStep mainSetUp cs (boot s.cwd s.files s.users s.clock).shared .marketInit
  | .login sock => aloneStep (clientLogin sock) cs s .recv
  | .spawn => aloneStep eventSpawnMarket cs s .full
  | .age => aloneStep eventAgeMarket cs s .despawn
  | .freeze tags => some ([], { s with market := freezeTags s.market tags })
  | .unfreeze tags => some ([], { s with market := unfreezeTags s.market tags })
  | .buy sock key docId => aloneStep (handleBuy sock key docId) cs s .find
  | .sell sock key npcId docIds => aloneStep (handleSell sock key npcId docIds) cs s .findNpc
  | .dispose sock key docId => aloneStep (handleDispose sock key docId) cs s .has
  | .reset => aloneStep triggerRoundReset cs s (.masterPurge .opendir)
  | .wait seconds => some ([], { s with clock := s.clock + seconds })

/-- **The world**, with a record of the operations made. -/
def world : System (Shared × List Made) (WorldOp × List Choice) where
  next x l := (worldStep x.1 l.2 l.1).map fun y => (y.2, x.2 ++ y.1)

/-! ### Unique ids -/

/-- No two live documents share an id: the listings, and the files outside the master directory. -/
structure UniqueIds (s : Shared) : Prop where
  listed : (activeIds s.market).Nodup
  apart : ∀ d ∈ activeIds s.market, ∀ dir, dir ≠ masterDir s.cwd → s.files.get dir d = none
  boxed : ∀ (d : ℤ) (dir dir' : Dir), dir ≠ masterDir s.cwd → dir' ≠ masterDir s.cwd →
    s.files.get dir d ≠ none → s.files.get dir' d ≠ none → dir = dir'

/-- The operation moves a document over one of the buyer, or writes one over the file of a
listing. -/
def Made.Overwrites (m : Made) : Prop :=
  match m.op with
  | .rename _ dst d => dst.dir m.before.cwd ≠ masterDir m.before.cwd ∧
      m.before.files.get (dst.dir m.before.cwd) d ≠ none
  | .writeMaster doc => doc.docId ∈ activeIds m.before.market
  | _ => False

/-! ### When it holds -/

/-- No sandbox has one of the documents. -/
def Absent (s : Shared) (ids : List ℤ) (C : Dir → Prop) : Prop :=
  ∀ dir ∈ s.files.dirs, dir ≠ masterDir s.cwd → C dir → ∀ d ∈ ids, s.files.get dir d = none

instance (s : Shared) (ids : List ℤ) (C : Dir → Prop) [DecidablePred C] :
    Decidable (Absent s ids C) := by
  unfold Absent
  infer_instance

/-- The directory of a plain key: what a reset purges. -/
def IsSandbox (cwd dir : Dir) : Prop :=
  ∃ key, key = Key.ofBytes (dir.getLastD []) ∧ key.Plain ∧ dir = userDir cwd key.bytes

instance (cwd dir : Dir) : Decidable (IsSandbox cwd dir) :=
  decidable_of_iff ((Key.ofBytes (dir.getLastD [])).Plain ∧
    dir = userDir cwd (Key.ofBytes (dir.getLastD [])).bytes)
    ⟨fun h => ⟨_, rfl, h⟩, fun ⟨_, hkey, h⟩ => hkey ▸ h⟩

/-- A server is started while no sandbox has a seed, the id of a spawned listing is not in use, and
a reset removes the seeds from the sandboxes. -/
def WorldGuard (s : Shared) (l : WorldOp × List Choice) : Prop :=
  match l.1 with
  | .start => Absent s seedIds fun _ => True
  | .spawn => s.docIdCounter + 1 ∉ activeIds s.market ∧
      Absent s [s.docIdCounter + 1] fun _ => True
  | .reset => (∀ c ∈ l.2, c.ok = true) ∧ Absent s seedIds fun dir => ¬ IsSandbox s.cwd dir
  | _ => True

instance (s : Shared) (l : WorldOp × List Choice) : Decidable (WorldGuard s l) := by
  unfold WorldGuard
  split <;> infer_instance

/-! ### One operation -/

/-- The document is listed, or in a sandbox. -/
def Live (s : Shared) (d : ℤ) : Prop :=
  d ∈ activeIds s.market ∨ ∃ dir, dir ≠ masterDir s.cwd ∧ s.files.get dir d ≠ none

/-- The document an operation lists or moves to a sandbox. -/
def Op.enlivens : Op → Option ℤ
  | .marketAdd d _ _ _ | .rename _ _ d => some d
  | _ => none

/-- The document an operation lists, moves or writes. -/
def Op.brings : Op → Option ℤ
  | .writeMaster doc => some doc.docId
  | o => o.enlivens

theorem brings_of_enlivens (h : o.enlivens = some d) : o.brings = some d := by
  cases o <;> first | exact h | cases h

theorem activeIds_take_sub (m : Market) (d : ℤ) :
    (activeIds (marketTake m d).2).Subperm (activeIds m) := by
  rcases marketTake_cases m d with ⟨e, he⟩ | ⟨slot, slots, hu, -, he⟩ <;> rw [he]
  exact (List.sublist_cons_self d _).subperm.trans (activeIds_take hu).symm.subperm

theorem activeIds_aged_sub (m : Market) (now n : ℕ) :
    (activeIds (marketDespawnAged m now n).2).Subperm (activeIds m) :=
  (List.sublist_append_right _ _).subperm.trans (activeIds_aged m now).symm.subperm

/-- An operation takes listings off the market, or lists the document it brings. -/
theorem active_step {r : o.Ret} (h : o.exec s c = some (s', r)) :
    (activeIds s'.market).Subperm (activeIds s.market) ∨
      ∃ d, o.enlivens = some d ∧ o.puts s.cwd = none ∧
        (activeIds s'.market).Perm (d :: activeIds s.market) := by
  by_cases ho : o.store = some .market
  · cases o <;> simp only [Op.store, Option.some.injEq, reduceCtorEq] at ho
    case marketTake d =>
      cases h
      exact .inl (activeIds_take_sub s.market d)
    case marketAdd d t p n =>
      rcases marketAdd_ids h with ⟨-, rfl, -⟩ | ⟨-, -, hids⟩
      · exact .inl (List.Subperm.refl _)
      · exact .inr ⟨d, rfl, rfl, hids⟩
    case marketDespawnAged =>
      cases h
      exact .inl (activeIds_aged_sub s.market s.clock maxMarketSlots)
    case freezeTags t =>
      cases h
      exact .inl (activeIds_freeze s.market t ▸ List.Subperm.refl _)
    case unfreezeTags t =>
      cases h
      exact .inl (activeIds_unfreeze s.market t ▸ List.Subperm.refl _)
    case marketInit =>
      cases h
      exact .inl (activeIds_marketInit ▸ List.nil_subperm)
  · rw [(exec_frame h).market ho]
    exact .inl (List.Subperm.refl _)

/-- A document of a sandbox was there, or is the one the operation moves. -/
theorem boxed_step {dir : Dir} {r : o.Ret} (h : o.exec s c = some (s', r))
    (hdir : dir ≠ masterDir s.cwd) (hget : s'.files.get dir d ≠ none) :
    s.files.get dir d ≠ none ∨ (o.enlivens = some d ∧ o.puts s.cwd = some (dir, d)) := by
  obtain ⟨doc, hdoc⟩ := Option.ne_none_iff_exists'.1 hget
  refine (get_step h hdoc).imp (fun hold => by rw [hold]; exact Option.some_ne_none doc)
    fun hputs => ?_
  refine ⟨?_, hputs⟩
  cases o <;> simp only [Op.puts, reduceCtorEq, Option.some.injEq, Prod.mk.injEq] at hputs
  · rw [← hputs.2]
    rfl
  · exact absurd hputs.1.symm hdir

/-- **An operation keeps ids unique** when what it brings is not in use. -/
theorem unique_step {r : o.Ret} (hU : UniqueIds s) (hnew : ∀ d ∈ o.brings, ¬ Live s d)
    (h : o.exec s c = some (s', r)) :
    UniqueIds s' ∧ ∀ d, Live s' d → Live s d ∨ o.enlivens = some d := by
  have hcwd := (exec_frame h).cwd
  have hbrings : ∀ {d}, o.enlivens = some d → ¬ Live s d := fun hd => hnew _ (brings_of_enlivens hd)
  have hactive : ∀ {d}, d ∈ activeIds s'.market →
      d ∈ activeIds s.market ∨ (o.enlivens = some d ∧ o.puts s.cwd = none) := by
    intro d hd
    rcases active_step h with hsub | ⟨e, he, hputs, hperm⟩
    · exact .inl (hsub.subset hd)
    · rcases List.mem_cons.1 (hperm.mem_iff.1 hd) with rfl | hd
      · exact .inr ⟨he, hputs⟩
      · exact .inl hd
  refine ⟨⟨?_, fun d hd dir hdir => ?_, fun d dir dir' hdir hdir' hget hget' => ?_⟩, fun d hd => ?_⟩
  · rcases active_step h with ⟨l, hl, hsub⟩ | ⟨d, hd, -, hperm⟩
    · exact hl.nodup_iff.1 (hU.listed.sublist hsub)
    · exact hperm.nodup_iff.2 (List.nodup_cons.2 ⟨fun hmem => hbrings hd (.inl hmem), hU.listed⟩)
  · rw [hcwd] at hdir
    by_contra hget
    rcases hactive hd with hold | ⟨hlist, hnone⟩ <;>
      rcases boxed_step h hdir hget with hbox | ⟨hmove, hputs⟩
    · exact hbox (hU.apart d hold dir hdir)
    · exact hbrings hmove (.inl hold)
    · exact hbrings hlist (.inr ⟨dir, hdir, hbox⟩)
    · rw [hnone] at hputs
      cases hputs
  · rw [hcwd] at hdir hdir'
    rcases boxed_step h hdir hget with hbox | ⟨hmove, hputs⟩ <;>
      rcases boxed_step h hdir' hget' with hbox' | ⟨hmove', hputs'⟩
    · exact hU.boxed d dir dir' hdir hdir' hbox hbox'
    · exact absurd (.inr ⟨dir, hdir, hbox⟩) (hbrings hmove')
    · exact absurd (.inr ⟨dir', hdir', hbox'⟩) (hbrings hmove)
    · rw [hputs, Option.some.injEq, Prod.mk.injEq] at hputs'
      exact hputs'.1
  · rcases hd with hd | ⟨dir, hdir, hget⟩
    · exact (hactive hd).imp .inl And.left
    · rw [hcwd] at hdir
      exact (boxed_step h hdir hget).imp (fun hbox => .inr ⟨dir, hdir, hbox⟩) And.left

/-- What brings nothing that is in use overwrites nothing. -/
theorem not_overwrites {m : Made} (h : ∀ d ∈ m.op.brings, ¬ Live m.before d) : ¬ m.Overwrites := by
  obtain ⟨before, op, choice⟩ := m
  intro ho
  cases op with
  | rename src dst d => exact h d rfl (.inr ⟨_, ho⟩)
  | writeMaster doc => exact h doc.docId rfl (.inl ho)
  | _ => exact ho

/-! ### One program -/

/-- What the world keeps. -/
structure Kept (s : Shared) : Prop where
  ready : Ready s
  unique : UniqueIds s

/-- **A program keeps ids unique** when no operation brings what is in use. -/
theorem kept_alone {I : Shared → α → Prop} {C : Choice → Prop}
    (hstep : ∀ s pc c s' r, Kept s → I s pc → C c → (prog pc).op.exec s c = some (s', r) →
      (∀ d ∈ (prog pc).op.brings, ¬ Live s d) ∧
        ((∀ d, Live s' d → Live s d ∨ (prog pc).op.enlivens = some d) →
          ∀ pc', (prog pc).next r = .cont pc' → I s' pc'))
    (hK : Kept s) (hI : I s pc) (hcs : ∀ c ∈ cs, C c)
    (h : aloneStep prog cs s pc = some (log, s')) : Kept s' ∧ ∀ m ∈ log, ¬ m.Overwrites := by
  obtain ⟨⟨log', s'', out⟩, hrun, heq⟩ := Option.map_eq_some_iff.1 h
  cases heq
  refine runAlone_log (I := fun s pc => Kept s ∧ I s pc) (P := fun s _ => Kept s)
    (Q := fun m => ¬ m.Overwrites) (fun s pc c s' r hI hc hexec => ?_) ⟨hK, hI⟩ hcs hrun
  obtain ⟨hnew, hnext⟩ := hstep s pc c s' r hI.1 hI.2 hc hexec
  obtain ⟨hunique, hlive⟩ := unique_step hI.1.unique hnew hexec
  have hkept : Kept s' := ⟨hI.1.ready.step hexec, hunique⟩
  refine ⟨not_overwrites hnew, ?_⟩
  cases hn : (prog pc).next r with
  | cont pc' => exact ⟨hkept, hnext hlive pc' hn⟩
  | ret b => exact hkept
  | fail code reason => exact hkept

/-- A program that brings no documents. -/
theorem kept_quiet (hquiet : ∀ pc, (prog pc).op.brings = none) (hK : Kept s)
    (h : aloneStep prog cs s pc = some (log, s')) : Kept s' ∧ ∀ m ∈ log, ¬ m.Overwrites := by
  refine kept_alone (I := fun _ _ => True) (C := fun _ => True) (fun s pc c s' r _ _ _ _ => ?_) hK
    trivial (fun _ _ => trivial) h
  refine ⟨fun d hd => ?_, fun _ _ _ => trivial⟩
  rw [hquiet pc] at hd
  cases hd

theorem clientLogin_quiet (sock : ℕ) (pc : Login) : (clientLogin sock pc).op.brings = none := by
  cases pc <;> rfl

theorem eventAgeMarket_quiet (pc : AgeMarket) : (eventAgeMarket pc).op.brings = none := by
  cases pc <;> rfl

theorem handleSell_quiet (sock : ℕ) (npcId : ℤ) (docIds : List ℤ) (pc : Sell) :
    (handleSell sock key npcId docIds pc).op.brings = none := by
  cases pc <;> rfl

theorem handleDispose_quiet (sock : ℕ) (pc : Dispose) :
    (handleDispose sock key d pc).op.brings = none := by
  cases pc <;> rfl

/-! ### Spawning and buying -/

/-- The id a spawn is to list, with `n` the counter. -/
def Spawn.draws (n : ℤ) : Spawn → Option ℤ
  | .full | .mask | .tags _ | .docId _ => some (n + 1)
  | .price _ d | .name _ d _ => some d
  | .write doc | .add doc => some doc.docId
  | _ => none

theorem kept_spawn (hK : Kept s) (hnew : ¬ Live s (s.docIdCounter + 1))
    (h : aloneStep eventSpawnMarket cs s .full = some (log, s')) :
    Kept s' ∧ ∀ m ∈ log, ¬ m.Overwrites := by
  refine kept_alone (I := fun s pc => ∀ d ∈ pc.draws s.docIdCounter, ¬ Live s d)
    (C := fun _ => True) (fun s pc c s' r _ hI _ hexec => ?_) hK
    (fun d hd => by cases hd; exact hnew) (fun _ _ => trivial) h
  refine ⟨fun d hd => hI d ?_, fun hlive pc' hpc' d hd => ?_⟩
  · cases pc <;> first | exact hd | cases hd
  · -- what is to be listed has not been brought yet
    have hold : d ∈ pc.draws s.docIdCounter ∧ (eventSpawnMarket pc).op.enlivens ≠ some d := by
      cases pc with
      | full | tags frozen =>
        cases hexec
        simp only [eventSpawnMarket] at hpc'
        split_ifs at hpc'
        cases hpc'
        exact ⟨hd, (by rintro ⟨⟩)⟩
      | write doc =>
        simp only [eventSpawnMarket] at hpc'
        split_ifs at hpc'
        cases hpc'
        exact ⟨hd, (by rintro ⟨⟩)⟩
      | add doc =>
        simp only [eventSpawnMarket] at hpc'
        split_ifs at hpc' <;> cases hpc' <;> cases hd
      | remove doc | announce doc => cases hpc'
      | _ =>
        cases hexec
        cases hpc'
        exact ⟨hd, (by rintro ⟨⟩)⟩
    exact fun hnow => (hlive d hnow).elim (hI d hold.1) hold.2

/-- The listing a buyer has taken off the market. -/
def Buy.held : Buy → Option MarketSlot
  | .stat slot _ _ | .move slot _ _ | .rollback slot => some slot
  | _ => none

theorem kept_buy {sock : ℕ} (hK : Kept s)
    (h : aloneStep (handleBuy sock key d) cs s .find = some (log, s')) :
    Kept s' ∧ ∀ m ∈ log, ¬ m.Overwrites := by
  refine kept_alone (I := fun s pc => ∀ slot ∈ pc.held, slot.docId = d ∧ ¬ Live s d)
    (C := fun _ => True) (fun s pc c s' r hK hI _ hexec => ?_) hK
    (fun slot hslot => by cases hslot) (fun _ _ => trivial) h
  have hkeep : ∀ {slot}, slot ∈ pc.held → s'.market = s.market → s'.files = s.files →
      slot.docId = d ∧ ¬ Live s' d := by
    intro slot hslot hmarket hfiles
    rw [Live, hmarket, hfiles, (exec_frame hexec).cwd]
    exact hI slot hslot
  refine ⟨fun e he => ?_, fun hlive pc' hpc' slot hslot => ?_⟩
  · cases pc with
    | move slot rec off =>
      cases he
      exact (hI slot rfl).2
    | rollback slot =>
      cases he
      obtain ⟨hslot, hnot⟩ := hI slot rfl
      rwa [hslot]
    | _ => cases he
  · cases pc with
    | take rec off =>
      cases hexec
      rcases marketTake_cases s.market d with ⟨e, he⟩ | ⟨slot', slots, hu, -, he⟩
      · simp only [handleBuy, he] at hpc'
        cases e <;> cases hpc'
      · simp only [handleBuy, he] at hpc'
        cases hpc'
        cases hslot
        have hperm := activeIds_take hu
        have hids := hperm.nodup_iff.1 hK.unique.listed
        have hmem : d ∈ activeIds s.market := hperm.mem_iff.2 List.mem_cons_self
        have hid : slot.active = true ∧ slot.docId = d := by
          simpa [MarketSlot.lists] using (mem_of_updateFirst hu).2
        refine ⟨hid.2, ?_⟩
        rintro (hlisted | ⟨dir, hdir, hget⟩)
        · simp only [he] at hlisted
          exact (List.nodup_cons.1 hids).1 hlisted
        · exact hget (hK.unique.apart d hmem dir hdir)
    | stat slot' rec off =>
      cases hexec
      simp only [handleBuy] at hpc'
      split_ifs at hpc' <;> cases hpc' <;> exact hkeep hslot rfl rfl
    | move slot' rec off =>
      cases r with
      | true =>
        cases hpc'
        cases hslot
      | false =>
        simp only [handleBuy, Op.exec] at hexec
        split at hexec <;> cases hexec
        cases hpc'
        exact hkeep hslot rfl rfl
    | find | count slot' | lookup slot' =>
      simp only [handleBuy] at hpc'
      split at hpc' <;> (try split_ifs at hpc') <;> cases hpc' <;> cases hslot
    | rollback slot' | announce => cases hpc'
    | _ =>
      cases hpc'
      cases hslot

/-! ### Seeds -/

/-- The documents that are left to be seeded are not in use. -/
structure Seed.Free (s : Shared) (pc : Seed) : Prop where
  nodup : (pc.docs.map (·.docId)).Nodup
  unused : ∀ doc ∈ pc.docs, ¬ Live s doc.docId

theorem Seed.Free.brings {pc : Seed} (h : pc.Free s) :
    ∀ d ∈ (seedMarketAndNpc pc).op.brings, ¬ Live s d := by
  intro d hd
  cases pc <;> cases hd <;> exact h.unused _ List.mem_cons_self

theorem Seed.Free.step {pc pc' : Seed} {r : (seedMarketAndNpc pc).op.Ret} (h : pc.Free s)
    (hlive : ∀ d, Live s' d → Live s d ∨ (seedMarketAndNpc pc).op.enlivens = some d)
    (hnext : (seedMarketAndNpc pc).next r = .cont pc') : pc'.Free s' := by
  cases pc with
  | write doc todo =>
    cases hnext
    exact ⟨h.nodup, fun doc' hdoc' hnow => (hlive _ hnow).elim (h.unused doc' hdoc') nofun⟩
  | add doc todo =>
    have hsub := docNext_docs hnext.symm
    obtain ⟨hnot, hnodup⟩ := List.nodup_cons.1 h.nodup
    have hdocs : pc'.docs = todo ∨ pc'.docs = [] := by
      cases todo <;> cases hnext
      · exact .inr rfl
      · exact .inl rfl
    refine ⟨?_, fun doc' hdoc' hnow => (hlive _ hnow).elim ?_ fun hlist => ?_⟩
    · rcases hdocs with hdocs | hdocs <;> rw [hdocs]
      · exact hnodup
      · exact List.nodup_nil
    · exact h.unused doc' (List.mem_cons_of_mem doc (hsub hdoc'))
    · have heq : doc.docId = doc'.docId := Option.some.inj hlist
      exact hnot (List.mem_map.2 ⟨doc', hsub hdoc', heq.symm⟩)
  | npc n todo =>
    cases todo <;> cases hnext
    exact ⟨List.nodup_nil, fun doc' hdoc' => absurd hdoc' List.not_mem_nil⟩

/-- The seeding may begin when no seed is in use. -/
theorem seed_free {pc : Seed} (hpc : pc.docs = seedDocs) (h : ∀ d ∈ seedIds, ¬ Live s d) :
    pc.Free s where
  nodup := by
    rw [hpc]
    decide
  unused doc hdoc := by
    rw [hpc] at hdoc
    exact h _ (List.mem_map_of_mem hdoc)

/-! ### The reset -/

theorem absent_get {ids : List ℤ} {C : Dir → Prop} {dir : Dir} (hA : Absent s ids C)
    (hs : s.files.Housed) (hdir : dir ≠ masterDir s.cwd) (hC : C dir) (hd : d ∈ ids) :
    s.files.get dir d = none := by
  by_cases hmem : dir ∈ s.files.dirs
  · exact hA dir hmem hdir hC d hd
  · exact docs_eq_nil.1 (hs dir hmem) d

theorem not_live (hs : s.files.Housed) (hd : d ∉ activeIds s.market)
    (hA : Absent s [d] fun _ => True) : ¬ Live s d := by
  rintro (hlisted | ⟨dir, hdir, hget⟩)
  · exact hd hlisted
  · exact hget (absent_get hA hs hdir trivial (List.mem_singleton_self d))

theorem activeIds_listed {m : Market} (h : Listed [] m) : activeIds m = [] := by
  refine List.eq_nil_iff_forall_not_mem.2 fun d hd => ?_
  obtain ⟨slot, hslot, -⟩ := List.mem_map.1 hd
  obtain ⟨hmem, hactive⟩ := List.mem_filter.1 hslot
  have hempty : slot.untimed = {} := by
    have huntimed := List.mem_map_of_mem (f := MarketSlot.untimed) hmem
    rw [h.slots] at huntimed
    exact List.eq_of_mem_replicate huntimed
  have hoff : slot.untimed.active = false := by rw [hempty]
  exact Bool.false_ne_true (hoff.symm.trans hactive)

/-- What the reset keeps: the seeds are in no directory that it does not purge. -/
structure Resets (s₀ s : Shared) (pc : Reset) : Prop where
  resetting : Resetting s₀ s pc
  strays : Absent s seedIds fun dir => ¬ IsSandbox s.cwd dir
  free : ∀ q, pc = .seed q → q.Free s

theorem strays_step {r : o.Ret} (hs : s.files.Housed) (ho : o.enlivens = none ∨ o.puts s.cwd = none)
    (h : o.exec s c = some (s', r)) (hA : Absent s seedIds fun dir => ¬ IsSandbox s.cwd dir) :
    Absent s' seedIds fun dir => ¬ IsSandbox s'.cwd dir := by
  intro dir _ hdir hbox d hd
  rw [(exec_frame h).cwd] at hdir hbox
  by_contra hget
  rcases boxed_step h hdir hget with hold | ⟨hmove, hputs⟩
  · exact hold (absent_get hA hs hdir hbox hd)
  · rcases ho with ho | ho
    · rw [ho] at hmove
      cases hmove
    · rw [ho] at hputs
      cases hputs

theorem triggerRoundReset_brings {pc : Reset} (hpc : ∀ q, pc ≠ .seed q) :
    (triggerRoundReset pc).op.brings = none := by
  cases pc with
  | masterPurge q | userPurge name todo q => cases q <;> rfl
  | seed q => exact absurd rfl (hpc q)
  | _ => rfl

/-- The seeding begins after the rumor's mutex. -/
theorem reset_enters_seed {pc : Reset} {q' : Seed} {r : (triggerRoundReset pc).op.Ret}
    (h : (triggerRoundReset pc).next r = .cont (.seed q')) : pc = .rumor ∨ ∃ q, pc = .seed q := by
  cases pc with
  | rumor => exact .inl rfl
  | seed q => exact .inr ⟨q, rfl⟩
  | masterPurge q =>
    simp only [triggerRoundReset, Action.map] at h
    split at h <;> cases h
  | userPurge name todo q =>
    simp only [triggerRoundReset, Action.map] at h
    split at h
    · cases h
    · cases todo <;> cases h
  | users | marketSnapshot | npcSnapshot =>
    simp only [triggerRoundReset] at h
    cases r <;> cases h
  | marketSend slot todo | npcSend npc todo => cases todo <;> cases h
  | _ => cases h

/-- **A reset** takes every seed out of the sandboxes before it lists the seeds again. -/
theorem kept_reset (hK : Kept s) (hcs : ∀ c ∈ cs, c.ok = true)
    (hA : Absent s seedIds fun dir => ¬ IsSandbox s.cwd dir)
    (h : aloneStep triggerRoundReset cs s (.masterPurge .opendir) = some (log, s')) :
    Kept s' ∧ ∀ m ∈ log, ¬ m.Overwrites := by
  have hstart : Resets s s (.masterPurge .opendir) :=
    ⟨⟨hK.ready, rfl, trivial⟩, hA, fun q hq => by cases hq⟩
  refine kept_alone (C := fun c => c.ok = true) (fun s₁ pc c s₂ r _ hI hok hexec => ?_)
    hK hstart hcs h
  have hready := hI.resetting.ready
  have hstrays : Absent s₂ seedIds fun dir => ¬ IsSandbox s₂.cwd dir := by
    refine strays_step hready.housed ?_ hexec hI.strays
    cases pc with
    | masterPurge q | userPurge name todo q => cases q <;> exact .inl rfl
    | seed q =>
      cases q with
      | add doc todo => exact .inr rfl
      | _ => exact .inl rfl
    | _ => exact .inl rfl
  have hpoint := reset_step hok hI.resetting hexec
  refine ⟨?_, fun hlive pc' hpc' => ?_⟩
  · by_cases hseed : ∃ q, pc = .seed q
    · obtain ⟨q, rfl⟩ := hseed
      exact (hI.free q rfl).brings
    · intro d hd
      rw [triggerRoundReset_brings fun q hq => hseed ⟨q, hq⟩] at hd
      cases hd
  · rw [hpc'] at hpoint
    refine ⟨hpoint, hstrays, fun q' hq' => ?_⟩
    subst hq'
    obtain ⟨hwiped, -⟩ := hpoint.point
    rcases reset_enters_seed hpc' with rfl | ⟨q, rfl⟩
    · obtain ⟨-, -, hlisted, -⟩ := hI.resetting.point
      have hmarket : s₂.market = s₁.market := (exec_frame hexec).market nofun
      cases hpc'
      refine seed_free rfl fun d hd => ?_
      rintro (hnow | ⟨dir, hdir, hget⟩)
      · rw [hmarket, activeIds_listed hlisted] at hnow
        cases hnow
      · refine hget ?_
        by_cases hbox : IsSandbox s₂.cwd dir
        · obtain ⟨key, -, hkey, rfl⟩ := hbox
          exact docs_eq_nil.1 (hwiped.empty key hkey) d
        · exact absent_get hstrays hpoint.ready.housed hdir hbox hd
    · simp only [triggerRoundReset, Action.map] at hpc'
      split at hpc' <;> cases hpc'
      rename_i hnext
      exact (hI.free q rfl).step hlive hnext

/-! ### The start -/

/-- While `main` sets the game up, the seeds that are left are not in use. -/
def Main.Sets (s : Shared) : Main → Prop
  | .marketInit | .npcInit => ∀ d ∈ seedIds, ¬ Live s d
  | .seed q => q.Free s
  | _ => True

/-- What `mainSetUp` runs before the event thread is started. -/
theorem mainSetUp_next {pc pc' : Main} {r : (mainSetUp pc).op.Ret}
    (h : (mainSetUp pc).next r = .cont pc') :
    (mainThread pc).next r = .cont pc' ∧ pc' ≠ .startEvents := by
  simp only [mainSetUp, Action.map] at h
  split at h
  · cases h
  · rename_i hne
    exact ⟨h, fun he => hne (h.trans (by rw [he]))⟩

theorem kept_start (hK : Kept s) (hA : Absent s seedIds fun _ => True) {clock : ℕ}
    (h : aloneStep mainSetUp cs (boot s.cwd s.files s.users clock).shared .marketInit =
      some (log, s')) : Kept s' ∧ ∀ m ∈ log, ¬ m.Overwrites := by
  have hboot : Kept (boot s.cwd s.files s.users clock).shared :=
    ⟨⟨hK.ready.housed, hK.ready.master⟩, List.nodup_nil, fun d hd => (by cases hd), hK.unique.boxed⟩
  have hfree : Main.Sets (boot s.cwd s.files s.users clock).shared .marketInit := by
    intro d hd
    rintro (hlisted | ⟨dir, hdir, hget⟩)
    · cases hlisted
    · exact hget (absent_get hA hK.ready.housed hdir trivial hd)
  refine kept_alone (I := Main.Sets) (C := fun _ => True) (fun s pc c s' r _ hI _ hexec => ?_)
    hboot hfree (fun _ _ => trivial) h
  refine ⟨fun d hd => ?_, fun hlive pc' hpc' => ?_⟩
  · cases pc with
    | seed q => exact Seed.Free.brings hI d hd
    | _ => cases hd
  · obtain ⟨hnext, hne⟩ := mainSetUp_next hpc'
    cases pc with
    | marketInit =>
      cases hnext
      exact fun d hd hnow => (hlive d hnow).elim (hI d hd) nofun
    | npcInit =>
      cases hnext
      exact seed_free rfl fun d hd hnow => (hlive d hnow).elim (hI d hd) nofun
    | seed q =>
      simp only [mainThread, Action.map] at hnext
      split at hnext <;> cases hnext
      · exact Seed.Free.step hI hlive ‹_›
      · exact absurd rfl hne
    | startEvents | add sock =>
      simp only [mainThread] at hnext
      split_ifs at hnext <;> cases hnext <;> trivial
    | accept | reject sock =>
      cases hnext
      trivial

/-! ### Runs of calls -/

/-- **One step of the world.** -/
theorem world_step {l : WorldOp × List Choice} (hK : Kept s) (hG : WorldGuard s l)
    (h : worldStep s l.2 l.1 = some (log, s')) : Kept s' ∧ ∀ m ∈ log, ¬ m.Overwrites := by
  obtain ⟨op, cs⟩ := l
  have hready := hK.ready
  have hsame : ∀ {m : Market} {t : ℕ}, activeIds m = activeIds s.market →
      Kept { s with
        market := m
        clock := t } := by
    intro m t hids
    exact ⟨⟨hready.housed, hready.master⟩, hids ▸ hK.unique.listed,
      fun d hd => hK.unique.apart d (hids ▸ hd), hK.unique.boxed⟩
  cases op with
  | start => exact kept_start hK hG h
  | login sock => exact kept_quiet (clientLogin_quiet sock) hK h
  | spawn => exact kept_spawn hK (not_live hready.housed hG.1 hG.2) h
  | age => exact kept_quiet eventAgeMarket_quiet hK h
  | freeze tags =>
    cases h
    exact ⟨hsame (activeIds_freeze s.market tags), List.forall_mem_nil _⟩
  | unfreeze tags =>
    cases h
    exact ⟨hsame (activeIds_unfreeze s.market tags), List.forall_mem_nil _⟩
  | buy sock key docId => exact kept_buy hK h
  | sell sock key npcId docIds => exact kept_quiet (handleSell_quiet sock npcId docIds) hK h
  | dispose sock key docId => exact kept_quiet (handleDispose_quiet sock) hK h
  | reset => exact kept_reset hK hG.1 hG.2 h
  | wait seconds =>
    cases h
    exact ⟨hsame rfl, List.forall_mem_nil _⟩

/-- A step in which nothing fails. -/
def smooth (op : WorldOp) (n : ℕ) : WorldOp × List Choice := (op, List.replicate n {})

/-- Alice logs in. -/
def aliceEnters : WorldOp × List Choice :=
  (.login 5, { request := some (.login (Key.ofBytes (utf8 "alice"))) } :: List.replicate 20 {})

/-- Alice buys a document, and every call succeeds. -/
def buys (d : ℤ) : WorldOp × List Choice := smooth (.buy 5 (Key.ofBytes (utf8 "alice")) d) 10

/-- Alice buys a document, another one is spawned, and the round is reset. -/
def roundScript : List (WorldOp × List Choice) :=
  [smooth .start 13, aliceEnters, buys 47, smooth .spawn 10, smooth .reset 60]

end UnderFlow
