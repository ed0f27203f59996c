import UnderFlow.Server.Places
import UnderFlow.Server.Announcing

/-!
# No document is lost or doubled

* `Opening` : the seeds find room on the market.
* `Thread.Placing` : what a thread lists has been written, and no purchase is rolled back.
* `Located` : the invariant; what is listed, in transit and bought, and where the files are.
* `located_step` : a step of the server keeps it.
* `docsPlaced_of_scope` : every document is in exactly one place, in every state of a run.
-/

namespace UnderFlow

variable {s s' : Shared} {c : Choice} {o : Op} {th th' : Thread} {a : Action Thread} {sock : ℕ}
  {key : Key} {t : ℕ} {d : ℤ} {doc : DocFile} {hist : List PlaceEvent} {p p' : Server}

/-! ### The seeds have room -/

/-- The main thread sets the game up. -/
def Thread.opens : Thread → Bool
  | .main .marketInit | .main .npcInit | .main (.seed _) => true
  | _ => false

/-- While the main thread sets the game up it is alone, and has room for the seeds. -/
def Opening (p : Server) : Prop :=
  ∀ th ∈ p.threads, th.opens = true → p.threads = [th] ∧ th.Roomy p.shared

theorem roomy_of_not_opens (h : th.opens = false) : th.Roomy s := by
  unfold Thread.Roomy
  split <;> first | cases h | trivial

theorem countP_free_add {now r : ℕ} {m m' : Market}
    (h : marketAdd m now r doc.docId doc.tags doc.basePrice doc.name = some m') :
    (m'.slots.countP fun slot => !slot.active) + 1 = m.slots.countP fun slot => !slot.active := by
  obtain ⟨slot, slot', hu, -, -, hactive, -⟩ := marketAdd_eq_some h
  have hfree := (mem_of_updateFirst hu).2
  have hcount := countP_updateFirst (q := fun slot => !slot.active) hu
  simp only [hfree, hactive, ↓reduceIte, Bool.not_true, Bool.false_eq_true, add_zero] at hcount
  exact hcount

/-- The room for the seeds that are left. -/
theorem roomy_seed {q q' : Seed} {r : (seedMarketAndNpc q).op.Ret}
    (hroom : (Thread.main (.seed q)).Roomy s)
    (hr : (seedMarketAndNpc q).op.exec s c = some (s', r))
    (hn : (seedMarketAndNpc q).next r = .cont q') : (Thread.main (.seed q')).Roomy s' := by
  cases q with
  | write doc todo =>
    cases hn
    rw [Thread.Roomy, (exec_frame hr).market (by rintro ⟨⟩)]
    exact hroom
  | add doc todo =>
    have hdocs : q'.docs.length ≤ todo.length := by
      cases todo <;> cases hn
      · exact Nat.le_refl _
      · exact Nat.le_refl _
    have hroom : todo.length + 1 ≤ s.market.slots.countP fun slot => !slot.active := hroom
    show q'.docs.length ≤ s'.market.slots.countP fun slot => !slot.active
    rcases exec_marketAdd hr with ⟨rfl, -⟩ | ⟨-, m, rfl, hadd⟩
    · omega
    · show q'.docs.length ≤ m.slots.countP fun slot => !slot.active
      have hcount := countP_free_add hadd
      omega
  | npc n todo =>
    cases todo <;> cases hn
    exact Nat.zero_le _

/-- **The set-up goes on** with room for the seeds that are left, and starts no thread. -/
theorem opens_step (hroom : th.Roomy s) (ha : th.action = some a) {r : a.op.Ret}
    (hr : a.op.exec s c = some (s', r)) (hopens : (a.next r).opens = true) :
    th.opens = true ∧ (a.next r).Roomy s' ∧ a.op.spawned r = [] := by
  have ho := thread_origin ha ⟨r, hr, rfl⟩
  have hmain : ∃ pc', a.next r = .main pc' := by
    generalize a.next r = th' at hopens
    cases th' <;> first | exact ⟨_, rfl⟩ | cases hopens
  obtain ⟨pc', hpc'⟩ := hmain
  rw [hpc'] at ho hopens ⊢
  obtain ⟨pc, rfl, -⟩ := ho
  cases ha
  cases pc with
  | marketInit =>
    cases hr
    cases hpc'
    refine ⟨rfl, ?_, rfl⟩
    show seedDocs.length ≤ marketInit.slots.countP fun slot => !slot.active
    decide
  | npcInit =>
    cases hr
    cases hpc'
    exact ⟨rfl, hroom, rfl⟩
  | seed q =>
    have hnone : (seedMarketAndNpc q).op.spawned r = [] := by cases q <;> rfl
    simp only [Action.map, mainThread] at hpc'
    rcases hn : (seedMarketAndNpc q).next r with q' | _ | _ <;> rw [hn] at hpc' <;> cases hpc'
    · exact ⟨rfl, roomy_seed hroom hr hn, hnone⟩
    · cases hopens
    · cases hopens
  | startEvents | add sock =>
    simp only [Action.map, mainThread] at hpc'
    split_ifs at hpc' <;> cases hpc' <;> cases hopens
  | accept | reject sock =>
    cases hpc'
    cases hopens

theorem Opening.roomy (hI : Opening p) (hth : th ∈ p.threads) : th.Roomy p.shared := by
  rcases h : th.opens with _ | _
  · exact roomy_of_not_opens h
  · exact (hI th hth h).2

/-- **A step of the server** keeps the room for the seeds. -/
theorem opening_step {l : Label} (hI : Opening p) (hn : server.next p l = some p') :
    Opening p' := by
  intro u hu hopens
  cases l with
  | env seconds =>
    obtain rfl := Pool.next_env.1 hn
    obtain ⟨hone, hroom⟩ := hI u hu hopens
    refine ⟨hone, ?_⟩
    unfold Thread.Roomy at hroom ⊢
    exact hroom
  | run t c =>
    obtain ⟨th, a, r, hth, ha, hr, hths⟩ := server_run hn
    have hroom := hI.roomy (List.mem_of_getElem? hth)
    rw [hths] at hu
    obtain ⟨j, hj⟩ := List.getElem?_of_mem hu
    rcases Pool.getElem?_step hj with ⟨hne, hj⟩ | ⟨-, rfl⟩ | hnew
    · -- there was no other thread
      have hone := (hI u (List.mem_of_getElem? hj) hopens).1
      rw [hone] at hj hth
      obtain ⟨hj0, -⟩ := List.getElem?_eq_some_iff.1 hj
      obtain ⟨ht0, -⟩ := List.getElem?_eq_some_iff.1 hth
      simp only [List.length_singleton] at hj0 ht0
      omega
    · obtain ⟨hopen, hroom', hnone⟩ := opens_step hroom ha hr hopens
      have hone := (hI th (List.mem_of_getElem? hth) hopen).1
      rw [hone] at hth
      obtain ⟨ht0, -⟩ := List.getElem?_eq_some_iff.1 hth
      obtain rfl : t = 0 := by simpa using ht0
      refine ⟨?_, hroom'⟩
      rw [hths, hone, hnone]
      rfl
    · obtain ⟨n, rfl⟩ | ⟨sock, -, rfl⟩ := spawned_start hnew
      · cases n <;> cases hopens
      · cases hopens

/-! ### What the threads know -/

/-- The document being written or listed. -/
def Spawn.document : Spawn → Option DocFile
  | .write doc | .add doc => some doc
  | _ => none

/-- What a thread lists has been written under a name that fits, and no purchase is rolled back. -/
def Thread.Placing (docs : List DocFile) : Thread → Prop
  | .main (.seed pc) => pc.docs ⊆ seedDocs ∧ ∀ doc ∈ pc.adds, doc ∈ docs
  | .session _ _ (.buy _ pc) => pc.adds = none
  | .event _ (.spawn pc) =>
    (∀ doc ∈ pc.document, cstr maxNameLen doc.name = doc.name) ∧ ∀ doc ∈ pc.adds, doc ∈ docs
  | _ => True

variable {docs docs' : List DocFile}

theorem Thread.Placing.mono (h : th.Placing docs) (hsub : docs ⊆ docs') : th.Placing docs' := by
  unfold Thread.Placing at h ⊢
  split at h
  · exact ⟨h.1, fun doc hdoc => hsub (h.2 doc hdoc)⟩
  · exact h
  · exact ⟨h.1, fun doc hdoc => hsub (h.2 doc hdoc)⟩
  · trivial

theorem seedDocs_name : ∀ doc ∈ seedDocs, cstr maxNameLen doc.name = doc.name := by
  intro doc h
  obtain ⟨⟨d, t, n⟩, -, rfl⟩ := List.mem_map.1 h
  exact cstr_cstr _ _

theorem rollback_of_placing (h : th.Placing docs) : th.rollback = none := by
  unfold Thread.rollback
  split
  · cases h
  · rfl

/-- What a thread lists has been written. -/
theorem Thread.Placing.adds (h : th.Placing docs) (hreset : th.resets = false)
    (hadds : th.adds = some doc) : doc ∈ docs ∧ cstr maxNameLen doc.name = doc.name := by
  unfold Thread.adds at hadds
  split at hadds
  · rename_i q
    refine ⟨h.2 doc hadds, seedDocs_name doc (h.1 ?_)⟩
    cases q <;> cases hadds
    exact List.mem_cons_self
  · rw [show _ = none from h] at hadds
    cases hadds
  · rename_i q
    refine ⟨h.2 doc hadds, h.1 doc ?_⟩
    cases q <;> cases hadds
    rfl
  · cases hreset
  · cases hadds

/-- A purchase whose document is in the master directory is not rolled back. -/
theorem buy_placing {q q' : Buy} (hmaster : ∀ e ∈ q.carries d,
      (s.files.get (masterDir s.cwd) e).isSome = true) (hq : q.adds = none)
    (hworks : (handleBuy sock key d q).op.Works s c)
    (h : (handleBuy sock key d q).Steps s c s' (.cont q')) : q'.adds = none := by
  obtain ⟨r, hr, hn⟩ := h
  cases q with
  | find | count slot | lookup slot | take rec off =>
    simp only [handleBuy] at hn
    split at hn <;> (try split_ifs at hn) <;> cases hn <;> rfl
  | stat slot rec off =>
    have hget : (s.files.get (masterDir s.cwd) d).isSome = true := hmaster d List.mem_cons_self
    have hok : c.ok = true := hworks
    cases hr
    simp only [handleBuy, Folder.dir, hok, hget, Bool.and_self, ↓reduceIte] at hn
    cases hn
    rfl
  | move slot rec off =>
    obtain ⟨file, hget⟩ := Option.isSome_iff_exists.1 (hmaster d List.mem_cons_self)
    obtain ⟨hok, hdir⟩ := hworks
    have hmove := Files.rename_eq_some.2 ⟨file, hget, hdir, rfl⟩
    simp only [handleBuy, Op.exec, Folder.dir, hok, ↓reduceIte] at hr
    simp only [Folder.dir] at hmove
    rw [hmove] at hr
    cases hr
    cases hn
    rfl
  | rollback slot => cases hq
  | charge slot rec off | reply slot rec =>
    cases hn
    rfl
  | announce => cases hn

/-- A spawned document is written under a name that fits before it is listed. -/
theorem spawn_placing {q q' : Spawn}
    (hname : ∀ doc ∈ q.document, cstr maxNameLen doc.name = doc.name)
    (h : (eventSpawnMarket q).Steps s c s' (.cont q')) :
    (∀ doc ∈ q'.document, cstr maxNameLen doc.name = doc.name) ∧
      ∀ doc ∈ q'.adds, doc ∈ docs ++ (eventSpawnMarket q).op.written.toList := by
  obtain ⟨r, hr, hn⟩ := h
  cases q with
  | full | tags frozen =>
    simp only [eventSpawnMarket] at hn
    split_ifs at hn
    cases hn
    exact ⟨(by rintro _ ⟨⟩), by rintro _ ⟨⟩⟩
  | mask | docId tags | price tags d =>
    cases hn
    exact ⟨(by rintro _ ⟨⟩), by rintro _ ⟨⟩⟩
  | name tags d price =>
    cases hr
    cases hn
    refine ⟨?_, by rintro _ ⟨⟩⟩
    rintro _ ⟨⟩
    exact cstr_cstr _ _
  | write doc =>
    simp only [eventSpawnMarket] at hn
    split_ifs at hn
    cases hn
    refine ⟨hname, ?_⟩
    rintro _ ⟨⟩
    exact List.mem_append_right _ (List.mem_singleton_self doc)
  | add doc =>
    simp only [eventSpawnMarket] at hn
    split_ifs at hn <;> cases hn <;> exact ⟨(by rintro _ ⟨⟩), by rintro _ ⟨⟩⟩
  | remove doc | announce doc => cases hn

/-- A seed is written before it is listed. -/
theorem seed_placing {q q' : Seed} (h : (seedMarketAndNpc q).Steps s c s' (.cont q')) :
    ∀ doc ∈ q'.adds, doc ∈ docs ++ (seedMarketAndNpc q).op.written.toList := by
  obtain ⟨r, -, hn⟩ := h
  cases q with
  | write doc todo =>
    cases hn
    rintro _ ⟨⟩
    exact List.mem_append_right _ (List.mem_singleton_self doc)
  | add doc todo | npc n todo => cases todo <;> cases hn <;> rintro _ ⟨⟩

/-- **What the next point of a thread knows.** -/
theorem placing_step (hP : th.Placing docs) (hmaster : ∀ e ∈ th.carries,
      (s.files.get (masterDir s.cwd) e).isSome = true)
    (ha : th.action = some a) {r : a.op.Ret} (hr : a.op.exec s c = some (s', r))
    (hworks : a.op.Works s c) : (a.next r).Placing (docs ++ a.op.written.toList) := by
  have ho := thread_origin ha ⟨r, hr, rfl⟩
  generalize a.next r = th' at ho ⊢
  cases th' with
  | main pc' =>
    cases pc' with
    | seed q' =>
      obtain ⟨pc, rfl, hs⟩ := ho
      cases ha
      cases pc with
      | npcInit =>
        obtain ⟨r', -, hn⟩ := hs
        cases hn
        exact ⟨List.Subset.refl _, by rintro _ ⟨⟩⟩
      | seed q =>
        obtain ⟨n, hn, he⟩ := Action.steps_map.1 hs
        rcases n with q'' | _ | _ <;> cases he
        exact ⟨List.Subset.trans (seedMarketAndNpc_docs hn) hP.1, seed_placing hn⟩
      | startEvents | add sock =>
        obtain ⟨r', -, hn⟩ := hs
        simp only [mainThread] at hn
        split_ifs at hn <;> cases hn
      | marketInit | accept | reject sock =>
        obtain ⟨r', -, hn⟩ := hs
        cases hn
    | _ => trivial
  | session sock key pc' =>
    rcases ho with ⟨pc, rfl, hs⟩ | ⟨rfl, -⟩
    · have ho := session_origin hs
      cases pc' with
      | buy d q' =>
        rcases ho with ⟨rfl, -⟩ | ⟨q, rfl, hn⟩
        · rfl
        · cases ha
          exact buy_placing hmaster hP hworks hn
      | _ => trivial
    · trivial
  | event v' pc' =>
    obtain ⟨v, pc, rfl, hs⟩ := ho
    have ho := event_origin hs
    cases pc' with
    | spawn q' =>
      rcases ho with rfl | ⟨q, rfl, hn⟩
      · exact ⟨(by rintro _ ⟨⟩), by rintro _ ⟨⟩⟩
      · cases ha
        exact spawn_placing hP.1 hn
    | _ => trivial
  | _ => trivial

/-! ### All documents -/

/-- The documents that are listed or in transit. -/
def Server.trading (p : Server) : List ℤ :=
  activeIds p.shared.market ++ p.threads.flatMap Thread.carries

/-- The documents whose purchase is complete. -/
def Server.purchased (p : Server) (hist : List PlaceEvent) : List ℤ :=
  p.threads.flatMap Thread.replies ++ boughtIds hist

theorem PlaceStep.append {T T' R R' U U' V V' X Y : List ℤ} (h : PlaceStep s c o s' T T' R R')
    (hU : U.Perm (T ++ X)) (hU' : U'.Perm (T' ++ X)) (hV : V.Perm (R ++ Y))
    (hV' : V'.Perm (R' ++ Y)) : PlaceStep s c o s' U U' V V' := by
  have hkeep : T'.Perm T → U'.Perm U := fun h => (hU'.trans (h.append_right X)).trans hU.symm
  have hlose : ∀ d, T.Perm (d :: T') → U.Perm (d :: U') := fun d h =>
    (hU.trans (h.append_right X)).trans (hU'.symm.cons d)
  have hsame : R'.Perm R → V'.Perm V := fun h => (hV'.trans (h.append_right Y)).trans hV.symm
  cases h with
  | keep hT hfiles hR hwritten hmoved => exact .keep (hkeep hT) hfiles (hsame hR) hwritten hmoved
  | discard key d ho hT hfiles hR => exact .discard key d ho (hkeep hT) hfiles (hsame hR)
  | write doc ho hT hfiles hR =>
    exact .write doc ho ((hU'.trans (hT.append_right X)).trans (hU.symm.cons doc.docId)) hfiles
      (hsame hR)
  | destroy d ho hT hfiles hR => exact .destroy d ho (hlose d hT) hfiles (hsame hR)
  | buy key d doc ho hT hget hfiles hR hmoved =>
    exact .buy key d doc ho (hlose d hT) hget hfiles
      ((hV'.trans (hR.append_right Y)).trans (hV.symm.cons d)) hmoved

/-- What is written, in the record. -/
theorem writtenDocs_step (hworks : o.Works s c) :
    writtenDocs (hist ++ o.placeEvents s c) = writtenDocs hist ++ o.written.toList := by
  have hstored : o.stored s c = o.written.toList := by
    cases o with
    | writeMaster doc =>
      exact if_pos (show c.ok = true ∧ masterDir s.cwd ∈ s.files.dirs from hworks)
    | _ => rfl
  simp [writtenDocs, Op.placeEvents, List.filterMap_map, hstored]

/-- What is bought, in the record. -/
theorem movedIds_step : movedIds (hist ++ o.placeEvents s c) = movedIds hist ++ o.moved s c := by
  simp [movedIds, Op.placeEvents, List.filterMap_map]

/-- What is answered, in the record. -/
theorem boughtIds_step : boughtIds (hist ++ o.placeEvents s c) = boughtIds hist ++ o.bought := by
  simp [boughtIds, Op.placeEvents, List.filterMap_map]

theorem spawned_hands {r : o.Ret} {u : Thread} (h : u ∈ o.spawned r) :
    u.carries = [] ∧ u.replies = [] := by
  obtain ⟨n, rfl⟩ | ⟨sock, -, rfl⟩ := spawned_start h
  · cases n <;> exact ⟨rfl, rfl⟩
  · exact ⟨rfl, rfl⟩

/-- **How a step of the server moves documents.** -/
theorem placeStep_run {r : o.Ret} (hth : p.threads[t]? = some th)
    (hths : p'.threads = p.threads.set t th' ++ o.spawned r)
    (h : ThreadPlaceStep p.shared c th o p'.shared th') :
    PlaceStep p.shared c o p'.shared p.trading p'.trading (p.purchased hist)
      (p'.purchased (hist ++ o.placeEvents p.shared c)) := by
  have hcarries : (p'.threads.flatMap Thread.carries).Perm
      (th'.carries ++ (p.threads.eraseIdx t).flatMap Thread.carries) := by
    rw [hths]
    exact Pool.hands_step Thread.carries hth fun u hu => (spawned_hands hu).1
  have hreplies : (p'.threads.flatMap Thread.replies).Perm
      (th'.replies ++ (p.threads.eraseIdx t).flatMap Thread.replies) := by
    rw [hths]
    exact Pool.hands_step Thread.replies hth fun u hu => (spawned_hands hu).2
  refine h.append (X := (p.threads.eraseIdx t).flatMap Thread.carries)
    (Y := (p.threads.eraseIdx t).flatMap Thread.replies ++ boughtIds hist) ?_ ?_ ?_ ?_
  · rw [around, List.append_assoc]
    exact (Pool.hands_perm Thread.carries hth).append_left _
  · rw [around, List.append_assoc]
    exact hcarries.append_left _
  · rw [← List.append_assoc]
    exact (Pool.hands_perm Thread.replies hth).append_right _
  · rw [Server.purchased, boughtIds_step]
    refine (hreplies.append_right _).trans ?_
    rw [List.append_assoc, List.append_assoc]
    refine List.Perm.append_left _ ?_
    rw [← List.append_assoc]
    exact List.perm_append_comm

/-- Where the file of a document is: in the master directory while it is listed or in transit, and
in one sandbox or nowhere afterwards. -/
structure Server.Stores (p : Server) (doc : DocFile) : Prop where
  kept : doc.docId ∈ p.trading → p.shared.files.OnlyIn (masterDir p.shared.cwd) doc
  gone : doc.docId ∉ p.trading → (∀ dir, p.shared.files.get dir doc.docId = none) ∨
    ∃ key : Key, key.Plain ∧ p.shared.files.OnlyIn (userDir p.shared.cwd key.bytes) doc

/-- **The invariant**: what is listed, in transit and bought, and where the files are. -/
structure Located (x : Server × List PlaceEvent) : Prop where
  housed : x.1.shared.files.Housed
  length : x.1.shared.market.slots.length ≤ maxMarketSlots
  opening : Opening x.1
  apart : (x.1.trading ++ x.1.purchased x.2).Nodup
  ids : ((writtenDocs x.2).map (·.docId)).Nodup
  done : (x.1.purchased x.2).Perm (movedIds x.2)
  known : x.1.trading ++ x.1.purchased x.2 ⊆ (writtenDocs x.2).map (·.docId)
  stores : ∀ doc ∈ writtenDocs x.2, x.1.Stores doc
  shows : ∀ slot ∈ x.1.shared.market.slots, slot.active = true → slot.doc ∈ writtenDocs x.2
  placing : ∀ th ∈ x.1.threads, th.Placing (writtenDocs x.2)

/-! ### The files of a document -/

variable {fs fs' : Files} {dir : Dir}

theorem Files.OnlyIn.congr (h : fs.OnlyIn dir doc)
    (hfs : ∀ dir, fs'.get dir doc.docId = fs.get dir doc.docId) : fs'.OnlyIn dir doc :=
  ⟨(hfs dir).trans h.1, fun dir' hdir' => (hfs dir').trans (h.2 dir' hdir')⟩

/-- The number of another document is not looked at. -/
theorem Server.Stores.congr (h : p.Stores doc) (hcwd : p'.shared.cwd = p.shared.cwd)
    (hT : doc.docId ∈ p'.trading ↔ doc.docId ∈ p.trading)
    (hfs : ∀ dir, p'.shared.files.get dir doc.docId = p.shared.files.get dir doc.docId) :
    p'.Stores doc where
  kept hmem := by
    rw [hcwd]
    exact (h.kept (hT.1 hmem)).congr hfs
  gone hmem := by
    rw [hcwd]
    refine (h.gone fun h => hmem (hT.2 h)).imp (fun hnone dir => (hfs dir).trans (hnone dir)) ?_
    rintro ⟨key, hkey, honly⟩
    exact ⟨key, hkey, honly.congr hfs⟩

/-- A file that is removed from the directory that has it. -/
theorem Files.OnlyIn.unlink (h : fs.OnlyIn dir doc) (dir' : Dir) :
    (fs.unlink dir doc.docId).2.get dir' doc.docId = none := by
  rw [Files.get_unlink]
  split_ifs with hdir
  · rfl
  · exact h.2 dir' fun heq => hdir ⟨heq, rfl⟩

/-- A sandbox loses a file. -/
theorem stores_discard (hI : p.Stores doc) (hcwd : p'.shared.cwd = p.shared.cwd)
    (hkey : key.Plain) (hT : doc.docId ∈ p'.trading ↔ doc.docId ∈ p.trading)
    (hfiles : p'.shared.files =
      (p.shared.files.unlink (userDir p.shared.cwd key.bytes) doc.docId).2) : p'.Stores doc := by
  have hget : ∀ dir, p'.shared.files.get dir doc.docId =
      if dir = userDir p.shared.cwd key.bytes then none
      else p.shared.files.get dir doc.docId := by
    intro dir
    rw [hfiles, Files.get_unlink]
    simp only [and_true]
  have hother : ∀ dir', dir' ≠ userDir p.shared.cwd key.bytes →
      p.shared.files.OnlyIn dir' doc → p'.shared.files.OnlyIn dir' doc := by
    intro dir' hne honly
    refine honly.congr fun dir => ?_
    rw [hget]
    split_ifs with hdir
    · exact (honly.2 dir (hdir ▸ hne.symm)).symm
    · rfl
  refine ⟨fun hmem => ?_, fun hmem => ?_⟩
  · rw [hcwd]
    exact hother _ (userDir_ne_masterDir hkey).symm (hI.kept (hT.1 hmem))
  · rw [hcwd]
    rcases hI.gone fun h => hmem (hT.2 h) with hnone | ⟨key', hkey', honly⟩
    · refine .inl fun dir => ?_
      rw [hget, hnone, ite_self]
    · by_cases hsame : userDir p.shared.cwd key'.bytes = userDir p.shared.cwd key.bytes
      · refine .inl fun dir => ?_
        rw [hget]
        split_ifs with hdir
        · rfl
        · exact honly.2 dir fun heq => hdir (heq.trans hsame)
      · exact .inr ⟨key', hkey', hother _ hsame honly⟩

/-- **A step keeps the files of a document** where they belong. -/
theorem stores_step {R R' : List ℤ} (hI : p.Stores doc) (hnodup : p.trading.Nodup)
    (hcwd : p'.shared.cwd = p.shared.cwd) (hplain : ∀ key ∈ o.owners, key.Plain)
    (hfresh : ∀ new ∈ o.written, new.docId ≠ doc.docId)
    (h : PlaceStep p.shared c o p'.shared p.trading p'.trading R R') : p'.Stores doc := by
  have hlost : ∀ d, p.trading.Perm (d :: p'.trading) → d ∈ p.trading ∧ d ∉ p'.trading ∧
      (doc.docId ≠ d → (doc.docId ∈ p'.trading ↔ doc.docId ∈ p.trading)) := by
    intro d hT
    refine ⟨hT.mem_iff.2 List.mem_cons_self, (List.nodup_cons.1 (hT.nodup_iff.1 hnodup)).1,
      fun hne => ?_⟩
    rw [hT.mem_iff, List.mem_cons, or_iff_right hne]
  cases h with
  | keep hT hfiles hR hwritten hmoved =>
    exact hI.congr hcwd hT.mem_iff fun dir => hfiles dir doc.docId
  | discard key d ho hT hfiles hR =>
    have hkey : key.Plain := hplain key (by rw [ho]; exact List.mem_singleton_self key)
    by_cases hd : doc.docId = d
    · subst hd
      exact stores_discard hI hcwd hkey hT.mem_iff hfiles
    · refine hI.congr hcwd hT.mem_iff fun dir => ?_
      rw [hfiles, Files.get_unlink, if_neg fun h => hd h.2]
  | write new ho hT hfiles hR =>
    have hne : doc.docId ≠ new.docId := (hfresh new (by rw [ho]; rfl)).symm
    refine hI.congr hcwd (by rw [hT.mem_iff, List.mem_cons, or_iff_right hne]) fun dir => ?_
    rw [hfiles, Files.get_put, if_neg fun h => hne h.2]
  | destroy d ho hT hfiles hR =>
    obtain ⟨hmem, hgone, hiff⟩ := hlost d hT
    by_cases hd : doc.docId = d
    · subst hd
      refine ⟨fun h => absurd h hgone, fun _ => .inl fun dir => ?_⟩
      rw [hfiles]
      exact (hI.kept hmem).unlink dir
    · refine hI.congr hcwd (hiff hd) fun dir => ?_
      rw [hfiles, Files.get_unlink, if_neg fun h => hd h.2]
  | buy key d file ho hT hget hfiles hR hmoved =>
    have hkey : key.Plain := hplain key (by rw [ho]; exact List.mem_singleton_self key)
    obtain ⟨hmem, hgone, hiff⟩ := hlost d hT
    by_cases hd : doc.docId = d
    · subst hd
      have honly := hI.kept hmem
      obtain rfl : file = doc := Option.some.inj (hget.symm.trans honly.1)
      refine ⟨fun h => absurd h hgone, fun _ => .inr ⟨key, hkey, ?_, fun dir hdir => ?_⟩⟩
      · rw [hfiles, hcwd, Files.get_put, if_pos ⟨rfl, rfl⟩]
      · rw [hcwd] at hdir
        rw [hfiles, Files.get_put, if_neg fun h => hdir h.1, Files.get_del]
        split_ifs with hmaster
        · rfl
        · exact honly.2 dir fun h => hmaster ⟨h, rfl⟩
    · refine hI.congr hcwd (hiff hd) fun dir => ?_
      rw [hfiles, Files.get_put, if_neg fun h => hd h.2, Files.get_del, if_neg fun h => hd h.2]

/-- The document that is written has its only file in the master directory. -/
theorem stores_written {R R' : List ℤ} (ho : o.written = some doc)
    (hcwd : p'.shared.cwd = p.shared.cwd)
    (hfresh : ∀ dir, p.shared.files.get dir doc.docId = none)
    (h : PlaceStep p.shared c o p'.shared p.trading p'.trading R R') : p'.Stores doc := by
  cases h with
  | write new ho' hT hfiles hR =>
    subst ho'
    cases ho
    refine ⟨fun _ => ⟨?_, fun dir hdir => ?_⟩, fun hmem => absurd ?_ hmem⟩
    · rw [hfiles, hcwd, Files.get_put, if_pos ⟨rfl, rfl⟩]
    · rw [hcwd] at hdir
      rw [hfiles, Files.get_put, if_neg fun h => hdir h.1]
      exact hfresh dir
    · exact hT.mem_iff.2 List.mem_cons_self
  | keep hT hfiles hR hwritten hmoved =>
    rw [hwritten] at ho
    cases ho
  | discard key d ho' hT hfiles hR | destroy d ho' hT hfiles hR
  | buy key d file ho' hT hget hfiles hR hmoved =>
    subst ho'
    cases ho

/-! ### Steps of the server -/

/-- What is listed, in transit or bought was so before, or is written now. -/
theorem PlaceStep.subperm {T T' R R' : List ℤ} (h : PlaceStep s c o s' T T' R R') :
    (T' ++ R').Subperm ((o.written.toList.map (·.docId)) ++ (T ++ R)) := by
  have hkeep : T'.Perm T → R'.Perm R →
      (T' ++ R').Subperm ((o.written.toList.map (·.docId)) ++ (T ++ R)) := fun hT hR =>
    (hT.append hR).subperm.trans (List.sublist_append_right _ _).subperm
  cases h with
  | keep hT hfiles hR hwritten hmoved => exact hkeep hT hR
  | discard key d ho hT hfiles hR => exact hkeep hT hR
  | write doc ho hT hfiles hR =>
    subst ho
    exact (hT.append hR).subperm
  | destroy d ho hT hfiles hR =>
    refine List.Subperm.trans ?_ (List.sublist_append_right _ _).subperm
    have hall : (T ++ R).Perm (d :: (T' ++ R')) := hT.append hR.symm
    exact (List.sublist_cons_self d _).subperm.trans hall.symm.subperm
  | buy key d doc ho hT hget hfiles hR hmoved =>
    refine List.Subperm.trans ?_ (List.sublist_append_right _ _).subperm
    refine ((hR.append_left T').trans ?_).subperm
    exact List.perm_middle.trans (hT.symm.append_right R)

/-- What is bought was bought before, or is moved now. -/
theorem PlaceStep.purchased {T T' R R' : List ℤ} (h : PlaceStep s c o s' T T' R R') :
    R'.Perm (o.moved s c ++ R) := by
  cases h with
  | keep hT hfiles hR hwritten hmoved =>
    rw [hmoved]
    exact hR
  | discard key d ho hT hfiles hR | write doc ho hT hfiles hR | destroy d ho hT hfiles hR =>
    subst ho
    exact hR
  | buy key d doc ho hT hget hfiles hR hmoved =>
    rw [hmoved]
    exact hR

/-- A new id is in no directory. -/
theorem FreshId.get (h : FreshId s hist d) (hW : s.files.Housed) (dir : Dir) :
    s.files.get dir d = none := by
  by_cases hdir : dir ∈ s.files.dirs
  · exact h.2 dir hdir
  · exact docs_eq_nil.1 (hW dir hdir) d

/-- A slot shows the document that it was filled with. -/
theorem doc_of_shows {slot : MarketSlot} (hname : cstr maxNameLen doc.name = doc.name)
    (h : slot.Shows doc) : slot.doc = doc := by
  obtain ⟨hid, htags, hprice, hslot⟩ := h
  rw [MarketSlot.doc, hid, htags, hprice, hslot, hname]

/-- What is written now was not known before. -/
theorem nodup_written (hI : Located (p, hist))
    (hfresh : ∀ doc ∈ o.written, FreshId p.shared hist doc.docId) :
    ((o.written.toList.map (·.docId)) ++ (p.trading ++ p.purchased hist)).Nodup ∧
      ((writtenDocs hist ++ o.written.toList).map (·.docId)).Nodup := by
  rcases hw : o.written with _ | doc
  · refine ⟨hI.apart, ?_⟩
    rw [Option.toList_none, List.append_nil]
    exact hI.ids
  · have hnew : doc.docId ∉ (writtenDocs hist).map (·.docId) := by
      intro hmem
      obtain ⟨old, hold, heq⟩ := List.mem_map.1 hmem
      exact (hfresh doc hw).1 old hold heq
    refine ⟨List.nodup_cons.2 ⟨fun hmem => hnew (hI.known hmem), hI.apart⟩, ?_⟩
    rw [Option.toList_some, List.map_append]
    exact (List.perm_append_singleton doc.docId _).nodup_iff.2 (List.nodup_cons.2 ⟨hnew, hI.ids⟩)

/-- **A step of the server** keeps the invariant. -/
theorem located_step {l : Label} (hI : Located (p, hist)) (hG : PlaceScope p hist l)
    (hn : server.next p l = some p') : Located (p', hist ++ placeEventsAt p l) := by
  cases l with
  | env seconds =>
    have hopening := opening_step hI.opening hn
    obtain rfl := Pool.next_env.1 hn
    have hev : placeEventsAt p (.env seconds) = [] := rfl
    rw [hev, List.append_nil]
    exact ⟨hI.housed, hI.length, hopening, hI.apart, hI.ids, hI.done, hI.known,
      fun doc hdoc => ⟨(hI.stores doc hdoc).kept, (hI.stores doc hdoc).gone⟩, hI.shows, hI.placing⟩
  | run t c =>
    obtain ⟨th, a, r, hth, ha, hr, hths⟩ := server_run hn
    have hmem : th ∈ p.threads := List.mem_of_getElem? hth
    have hop : opAt p (.run t c) = some a.op := opAt_run hth ha
    have hworks : a.op.Works p.shared c := hG.works a.op hop
    have hreset : th.resets = false := hG.noReset th hth
    have hplacing := hI.placing th hmem
    have hev : placeEventsAt p (.run t c) = a.op.placeEvents p.shared c := by
      rw [placeEventsAt, hop]
      rfl
    have hdocs : writtenDocs (hist ++ a.op.placeEvents p.shared c) =
        writtenDocs hist ++ a.op.written.toList := writtenDocs_step hworks
    have hstep : PlaceStep p.shared c a.op p'.shared p.trading p'.trading (p.purchased hist)
        (p'.purchased (hist ++ a.op.placeEvents p.shared c)) := placeStep_run hth hths
      (place_step hI.housed hI.length (hI.opening.roomy hmem) hreset
        (rollback_of_placing hplacing) ha hr hworks)
    have hcwd := (exec_frame hr).cwd
    have hfresh : ∀ doc ∈ a.op.written, FreshId p.shared hist doc.docId := hG.fresh a.op hop
    have hmaster : ∀ e ∈ th.carries,
        (p.shared.files.get (masterDir p.shared.cwd) e).isSome = true := by
      intro e he
      have htrading : e ∈ p.trading :=
        List.mem_append_right _ (List.mem_flatMap.2 ⟨th, hmem, he⟩)
      obtain ⟨doc, hdoc, rfl⟩ := List.mem_map.1 (hI.known (List.mem_append_left _ htrading))
      rw [((hI.stores doc hdoc).kept htrading).1]
      rfl
    obtain ⟨hapart, hids⟩ := nodup_written hI hfresh
    obtain ⟨sub, hsub, hall⟩ := hstep.subperm
    rw [hev]
    refine ⟨housed_step hI.housed hr, length_step (market_step ha ⟨r, hr, rfl⟩) hI.length,
      opening_step hI.opening hn, hsub.nodup_iff.1 (hapart.sublist hall), ?_, ?_, ?_, ?_, ?_, ?_⟩
    · rw [hdocs]
      exact hids
    · rw [movedIds_step]
      exact hstep.purchased.trans ((hI.done.append_left _).trans List.perm_append_comm)
    · intro d hd
      rw [hdocs, List.map_append, List.mem_append]
      refine (List.mem_append.1 (hall.subset (hsub.mem_iff.2 hd))).symm.imp_left ?_
      exact fun hold => hI.known hold
    · intro doc hdoc
      rw [hdocs] at hdoc
      rcases List.mem_append.1 hdoc with hold | hnow
      · refine stores_step (hI.stores doc hold) (List.nodup_append'.1 hI.apart).1 hcwd
          (hG.plain a.op hop) (fun new hnew heq => ?_) hstep
        exact (hfresh new hnew).1 doc hold heq.symm
      · have hnow := Option.mem_toList.1 hnow
        exact stores_written hnow hcwd ((hfresh doc hnow).get hI.housed) hstep
    · intro slot' hslot' hactive
      rw [hdocs]
      rcases slot_step (market_step ha ⟨r, hr, rfl⟩) hslot' with
        ⟨slot, hslot, hid, htags, hprice, hname, hwas⟩ | ⟨doc, hadds, hshows⟩ | rfl
      · have hsame : slot'.doc = slot.doc := by
          rw [MarketSlot.doc, MarketSlot.doc, hid, htags, hprice, hname]
        rw [hsame]
        exact List.mem_append_left _ (hI.shows slot hslot (hwas hactive))
      · obtain ⟨hdoc, hname⟩ := hplacing.adds hreset hadds
        rw [doc_of_shows hname hshows]
        exact List.mem_append_left _ hdoc
      · cases hactive
    · intro u hu
      rw [hths] at hu
      rw [hdocs]
      obtain ⟨j, hj⟩ := List.getElem?_of_mem hu
      rcases Pool.getElem?_step hj with ⟨-, hj⟩ | ⟨-, rfl⟩ | hnew
      · exact (hI.placing u (List.mem_of_getElem? hj)).mono (List.subset_append_left _ _)
      · exact placing_step hplacing hmaster ha hr hworks
      · obtain ⟨n, rfl⟩ | ⟨sock, -, rfl⟩ := spawned_start hnew
        · cases n <;> trivial
        · trivial

theorem located_boot {cwd : Dir} {files : Files} (hfiles : files.Housed) (users : UserDb)
    (clock : ℕ) : Located (boot cwd files users clock, []) where
  housed := hfiles
  length := Nat.zero_le _
  opening th hth _ := by
    obtain rfl := List.mem_singleton.1 hth
    exact ⟨rfl, rfl⟩
  apart := List.nodup_nil
  ids := List.nodup_nil
  done := .refl _
  known := List.nil_subset _
  stores := List.forall_mem_nil _
  shows := List.forall_mem_nil _
  placing th hth := by
    obtain rfl := List.mem_singleton.1 hth
    trivial

/-! ### One place for each document -/

/-- A document is in one place at most. -/
theorem at_unique {place place' : Place} (h : p.At doc place) (h' : p.At doc place') :
    place = place' := by
  have hlisted : ∀ {b : Place}, p.At doc .market → p.At doc b → b = .market := by
    rintro b ⟨⟨hcount, -⟩, hidle, -⟩ hb
    have hmem : doc.docId ∈ activeIds p.shared.market :=
      List.count_pos_iff.1 (by rw [hcount]; exact Nat.one_pos)
    cases b with
    | market => rfl
    | transit => exact absurd hmem hb.1
    | sandbox key => exact absurd hmem hb.1.1
    | destroyed => exact absurd hmem hb.1.1
  have hcarried : ∀ {b : Place}, p.At doc .transit → p.At doc b → b = .transit := by
    rintro b ⟨hno, ⟨t, ⟨th, hth, hmem⟩, -⟩, honly⟩ hb
    cases b with
    | market => exact absurd hmem (hb.2.1 th (List.mem_of_getElem? hth))
    | transit => rfl
    | sandbox key => exact absurd hmem (hb.1.2 th (List.mem_of_getElem? hth))
    | destroyed => exact absurd hmem (hb.1.2 th (List.mem_of_getElem? hth))
  have hsome : ∀ {dir}, p.shared.files.OnlyIn dir doc →
      p.shared.files.get dir doc.docId ≠ none := by
    intro dir honly hnone
    rw [honly.1] at hnone
    cases hnone
  cases place with
  | market => exact (hlisted h h').symm
  | transit => exact (hcarried h h').symm
  | sandbox key =>
    cases place' with
    | market => exact hlisted h' h
    | transit => exact hcarried h' h
    | sandbox key' =>
      by_contra hne
      refine hsome h.2.2 (h'.2.2.2 _ fun heq => hne ?_)
      rw [userDir_inj h.2.1 h'.2.1 heq]
    | destroyed => exact absurd (h'.2 _) (hsome h.2.2)
  | destroyed =>
    cases place' with
    | market => exact hlisted h' h
    | transit => exact hcarried h' h
    | sandbox key' => exact absurd (h.2 _) (hsome h'.2.2)
    | destroyed => rfl

/-- **A document that has been written is in some place.** -/
theorem Located.exists_at (hI : Located (p, hist)) (hdoc : doc ∈ writtenDocs hist) :
    ∃ place, p.At doc place := by
  obtain ⟨htrading, -, -⟩ := List.nodup_append'.1 hI.apart
  obtain ⟨hactive, hcarries, hdisj⟩ := List.nodup_append'.1 htrading
  have hstores := hI.stores doc hdoc
  by_cases hlisted : doc.docId ∈ activeIds p.shared.market
  · refine ⟨.market, ⟨List.count_eq_one_of_mem hactive hlisted, ?_⟩, fun th hth hmem => ?_,
      hstores.kept (List.mem_append_left _ hlisted)⟩
    · obtain ⟨slot, hslot, hid⟩ := List.mem_map.1 hlisted
      obtain ⟨hslot, hon⟩ := List.mem_filter.1 hslot
      refine ⟨slot, hslot, hon, ?_⟩
      exact List.inj_on_of_nodup_map hI.ids (hI.shows slot hslot hon) hdoc hid
    · exact hdisj hlisted (List.mem_flatMap.2 ⟨th, hth, hmem⟩)
  by_cases hcarried : doc.docId ∈ p.threads.flatMap Thread.carries
  · refine ⟨.transit, hlisted, ?_, hstores.kept (List.mem_append_right _ hcarried)⟩
    obtain ⟨th, hth, hmem⟩ := List.mem_flatMap.1 hcarried
    obtain ⟨t, ht⟩ := List.getElem?_of_mem hth
    refine ⟨t, ⟨th, ht, hmem⟩, ?_⟩
    rintro t' ⟨th', ht', hmem'⟩
    exact Pool.hands_unique hcarries ht' ht hmem' hmem
  · have hleft : p.Left doc.docId :=
      ⟨hlisted, fun th hth hmem => hcarried (List.mem_flatMap.2 ⟨th, hth, hmem⟩)⟩
    have hout : doc.docId ∉ p.trading := fun h =>
      (List.mem_append.1 h).elim hlisted hcarried
    rcases hstores.gone hout with hnone | ⟨key, hkey, honly⟩
    · exact ⟨.destroyed, hleft, hnone⟩
    · exact ⟨.sandbox key, hleft, hkey, honly⟩

theorem Located.docsPlaced (hI : Located (p, hist)) : DocsPlaced p hist where
  place doc hdoc := by
    obtain ⟨place, hplace⟩ := hI.exists_at hdoc
    exact ⟨place, hplace, fun place' hplace' => at_unique hplace' hplace⟩
  ids := hI.ids
  left d hd := by
    have hbought : d ∈ p.purchased hist := hI.done.mem_iff.2 hd
    have hout : d ∉ p.trading := fun h => (List.nodup_append'.1 hI.apart).2.2 h hbought
    exact ⟨fun h => hout (List.mem_append_left _ h), fun th hth h =>
      hout (List.mem_append_right _ (List.mem_flatMap.2 ⟨th, hth, h⟩))⟩
  once := (List.nodup_append'.1 (List.nodup_append'.1 hI.apart).2.1).2.1

/-- **Every document is in exactly one place**, in every run of the server in which ids are fresh,
keys are plain, file operations fail only if their source is missing, and no round is reset. -/
theorem docsPlaced_of_scope {cwd : Dir} {files : Files} (hfiles : files.Housed) (users : UserDb)
    (clock : ℕ) {x : Server × List PlaceEvent} (hx : placeServer.Reach
      (fun x l => PlaceScope x.1 x.2 l) (boot cwd files users clock, []) x) :
    DocsPlaced x.1 x.2 := by
  have hI : Located x := by
    refine hx.invariant (located_boot hfiles users clock) fun x l x' _ hI hG hn => ?_
    obtain ⟨hn, hhist⟩ := System.withHistory_next.1 hn
    have hx : x' = (x'.1, x.2 ++ placeEventsAt x.1 l) := by rw [← hhist]
    rw [hx]
    exact located_step hI hG hn
  exact hI.docsPlaced

/-! ### Runs -/

/-- Alice buys a seed and disposes of it, and the event thread puts up another document. -/
def disposedScript : List Label :=
  startUp ++ connect 5 ++ logIn 2 (Key.ofBytes (utf8 "alice")) ++
    receive 2 (.buy 47) :: steps 2 10 ++ receive 2 (.dispose 47) :: steps 2 3 ++
    steps 1 3 ++ .env 5 :: steps 1 14

/-- A run in which a document is bought and destroyed, and another one is spawned. -/
theorem docsPlaced_alice : ∃ x, placeServer.Reach (fun x l => PlaceScope x.1 x.2 l)
    (freshBoot, []) x ∧
    (writtenDocs x.2).map (·.docId) = [124, 111, 47, 70, 1] ∧ boughtIds x.2 = [47] ∧
      DocsPlaced x.1 x.2 := by
  obtain ⟨x, hx, hf⟩ := placeServer.exists_reach_of_any (fun x l => PlaceScope x.1 x.2 l)
    (freshBoot, []) disposedScript
    (fun x => decide ((writtenDocs x.2).map (·.docId) = [124, 111, 47, 70, 1]) &&
      decide (boughtIds x.2 = [47])) (by decide +kernel)
  simp only [Bool.and_eq_true, decide_eq_true_eq] at hf
  exact ⟨x, hx, hf.1, hf.2, docsPlaced_of_scope (fun _ _ => rfl) _ _ hx⟩

end UnderFlow
