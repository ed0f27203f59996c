import UnderFlow.Server.Refusal
import UnderFlow.Server.Clerks
import UnderFlow.Server.Documents

/-!
# Where a document is

A document that has been put up is in one place: on the market, in the hands of one thread, in one
sandbox, or gone.

* `Thread.carries` : the documents a thread has in transit.
* `Server.At` : what it means to be in a place.
* `placeServer` : the server with a record of the documents written, moved and answered for.
* `DocsPlaced` : every document is in exactly one place, and no purchase is undone or answered
  twice.
* `PlaceScope` : ids are fresh, keys are plain, file operations work, and no round is reset.
* `PlaceStep`, `place_step` : how a step moves documents between the places.
-/

namespace UnderFlow

/-! ### Places -/

/-- The documents a purchase has in transit. -/
def Buy.carries (docId : ℤ) : Buy → List ℤ
  | .stat _ _ _ | .move _ _ _ | .rollback _ => [docId]
  | _ => []

/-- The purchase of the document is complete, and not answered yet. -/
def Buy.replies (docId : ℤ) : Buy → List ℤ
  | .charge _ _ _ | .reply _ _ => [docId]
  | _ => []

/-- The documents a spawn has written and not listed. -/
def Spawn.carries : Spawn → List ℤ
  | .add doc | .remove doc => [doc.docId]
  | _ => []

/-- The documents that are off the market with their files still there. -/
def AgeMarket.carries : AgeMarket → List ℤ
  | .remove docId todo => docId :: todo
  | .announce _ todo => todo
  | .despawn => []

/-- The document the seeding has written and not listed. -/
def Seed.carries : Seed → List ℤ
  | .add doc _ => [doc.docId]
  | _ => []

/-- The documents a thread has in transit: they have a master file and no listing. -/
def Thread.carries : Thread → List ℤ
  | .main (.seed pc) => pc.carries
  | .session _ _ (.buy docId pc) => pc.carries docId
  | .event _ (.spawn pc) => pc.carries
  | .event _ (.ageMarket pc) => pc.carries
  | _ => []

/-- The purchases of a thread that are complete and not answered yet. -/
def Thread.replies : Thread → List ℤ
  | .session _ _ (.buy docId pc) => pc.replies docId
  | _ => []

/-- Where a document may be. -/
inductive Place where
  | market
  | transit
  | sandbox (key : Key)
  | destroyed

/-- The document has a file in the directory, and no other directory has one of its number. -/
def Files.OnlyIn (fs : Files) (dir : Dir) (doc : DocFile) : Prop :=
  fs.get dir doc.docId = some doc ∧ ∀ dir', dir' ≠ dir → fs.get dir' doc.docId = none

/-- One active slot has the id, and it shows the document. -/
def Server.Lists (p : Server) (doc : DocFile) : Prop :=
  (activeIds p.shared.market).count doc.docId = 1 ∧
    ∃ slot ∈ p.shared.market.slots, slot.active = true ∧ slot.doc = doc

/-- No thread has the document in transit. -/
def Server.Idle (p : Server) (d : ℤ) : Prop := ∀ th ∈ p.threads, d ∉ th.carries

/-- The document is neither on the market nor in transit. -/
def Server.Left (p : Server) (d : ℤ) : Prop := d ∉ activeIds p.shared.market ∧ p.Idle d

/-- **The document is in the place**, and in no other. -/
def Server.At (p : Server) (doc : DocFile) : Place → Prop
  | .market => p.Lists doc ∧ p.Idle doc.docId ∧
    p.shared.files.OnlyIn (masterDir p.shared.cwd) doc
  | .transit => doc.docId ∉ activeIds p.shared.market ∧
    (∃! t : ℕ, ∃ th : Thread, p.threads[t]? = some th ∧ doc.docId ∈ th.carries) ∧
    p.shared.files.OnlyIn (masterDir p.shared.cwd) doc
  | .sandbox key => p.Left doc.docId ∧ key.Plain ∧
    p.shared.files.OnlyIn (userDir p.shared.cwd key.bytes) doc
  | .destroyed => p.Left doc.docId ∧ ∀ dir, p.shared.files.get dir doc.docId = none

/-! ### The record -/

/-- What happens to a document. -/
inductive PlaceEvent where
  /-- The master file of a document is written. -/
  | written (doc : DocFile)
  /-- The document is moved to the sandbox of its buyer. -/
  | moved (docId : ℤ)
  /-- `PKT_RES_BUY_OK` is sent for the document. -/
  | bought (docId : ℤ)
  deriving DecidableEq

/-- The document whose master file an operation writes. -/
def Op.stored (s : Shared) (c : Choice) : Op → List DocFile
  | .writeMaster doc => if c.ok = true ∧ masterDir s.cwd ∈ s.files.dirs then [doc] else []
  | _ => []

/-- The document an operation moves: its purchase is complete. -/
def Op.moved (s : Shared) (c : Choice) : Op → List ℤ
  | .rename src dst d =>
    if c.ok = true ∧ (s.files.rename (src.dir s.cwd) (dst.dir s.cwd) d).isSome = true then [d]
    else []
  | _ => []

/-- The purchase an operation answers. -/
def Op.bought : Op → List ℤ
  | .packetSend _ (.buyOk d _ _ _) => [d]
  | _ => []

/-- What an operation adds to the record. -/
def Op.placeEvents (s : Shared) (c : Choice) (o : Op) : List PlaceEvent :=
  (o.stored s c).map .written ++ (o.moved s c).map .moved ++ o.bought.map .bought

/-- What a step adds to the history. -/
def placeEventsAt (p : Server) (l : Label) : List PlaceEvent :=
  ((opAt p l).map (Op.placeEvents p.shared (choiceOf l))).getD []

/-- **The server** with a record of documents and purchases. -/
def placeServer : System (Server × List PlaceEvent) Label := server.withHistory placeEventsAt

/-- The documents that have been written. -/
def writtenDocs (hist : List PlaceEvent) : List DocFile := hist.filterMap fun
  | .written doc => some doc
  | _ => none

/-- The documents whose purchase is complete. -/
def movedIds (hist : List PlaceEvent) : List ℤ := hist.filterMap fun
  | .moved d => some d
  | _ => none

/-- The documents whose purchase has been answered. -/
def boughtIds (hist : List PlaceEvent) : List ℤ := hist.filterMap fun
  | .bought d => some d
  | _ => none

/-! ### The place of a document -/

/-- **Every document is in one place**, what is bought does not come back, and no purchase is
answered twice. -/
structure DocsPlaced (p : Server) (hist : List PlaceEvent) : Prop where
  place : ∀ doc ∈ writtenDocs hist, ∃! place, p.At doc place
  ids : ((writtenDocs hist).map (·.docId)).Nodup
  left : ∀ d ∈ movedIds hist, p.Left d
  once : (boughtIds hist).Nodup

/-! ### The scope -/

/-- The file operation fails only if its source is missing. -/
def Op.Works (s : Shared) (c : Choice) : Op → Prop
  | .stat _ _ | .unlink _ _ => c.ok = true
  | .rename _ dst _ => c.ok = true ∧ dst.dir s.cwd ∈ s.files.dirs
  | .writeMaster _ => c.ok = true ∧ masterDir s.cwd ∈ s.files.dirs
  | _ => True

instance (s : Shared) (c : Choice) (o : Op) : Decidable (o.Works s c) := by
  unfold Op.Works
  split <;> infer_instance

/-- The sandboxes an operation works on. -/
def Op.owners : Op → List Key
  | .rename _ (.user key) _ | .unlink (.user key) _ => [key]
  | _ => []

/-- The document an operation writes. -/
def Op.written : Op → Option DocFile
  | .writeMaster doc => some doc
  | _ => none

/-- The id has not been used, and no file has it. -/
def FreshId (s : Shared) (hist : List PlaceEvent) (d : ℤ) : Prop :=
  (∀ doc ∈ writtenDocs hist, doc.docId ≠ d) ∧ ∀ dir ∈ s.files.dirs, s.files.get dir d = none

instance (s : Shared) (hist : List PlaceEvent) (d : ℤ) : Decidable (FreshId s hist d) :=
  inferInstanceAs (Decidable (_ ∧ _))

/-- Ids are fresh when they are given out, keys are plain, file operations fail only if their source
is missing, and no round is reset. -/
structure PlaceScope (p : Server) (hist : List PlaceEvent) (l : Label) : Prop where
  fresh : ∀ o ∈ opAt p l, ∀ doc ∈ o.written, FreshId p.shared hist doc.docId
  plain : ∀ o ∈ opAt p l, ∀ key ∈ o.owners, key.Plain
  works : ∀ o ∈ opAt p l, o.Works p.shared (choiceOf l)
  noReset : ∀ th ∈ threadAt p l, th.resets = false

instance (p : Server) (hist : List PlaceEvent) (l : Label) : Decidable (PlaceScope p hist l) :=
  decidable_of_iff (_ ∧ _ ∧ _ ∧ _) ⟨fun h => ⟨h.1, h.2.1, h.2.2.1, h.2.2.2⟩,
    fun h => ⟨h.fresh, h.plain, h.works, h.noReset⟩⟩

variable {s s' : Shared} {c : Choice} {o : Op} {th th' : Thread} {a : Action Thread} {sock : ℕ}
  {key : Key} {t : ℕ} {d : ℤ} {doc : DocFile} {hist : List PlaceEvent} {p p' : Server}

/-! ### Operations -/

/-- The operation may move documents into or out of the market or the master directory, or answer a
purchase. -/
def Op.placing : Op → Bool
  | .marketTake _ | .marketAdd _ _ _ _ | .marketDespawnAged | .marketInit | .writeMaster _
  | .rename _ _ _ | .packetSend _ (.buyOk _ _ _ _) => true
  | .unlink (.user _) _ => false
  | .unlink _ _ => true
  | _ => false

/-- A directory that is made is empty, and so it was. -/
theorem get_mkdir_eq {fs fs' : Files} {dir dir' : Dir} (hW : fs.Housed)
    (h : fs.mkdir dir' = some fs') (i : ℤ) : fs'.get dir i = fs.get dir i := by
  simp only [Files.mkdir] at h
  split_ifs at h with hdir hparent <;> cases h
  · rfl
  · by_cases hd : dir = dir'
    · subst hd
      rw [docs_eq_nil.1 (hW dir hdir) i]
      simp [Files.get]
    · simp [Files.get, Function.update_of_ne hd]

/-- **Most operations** leave the market alone, and remove at most a document of a sandbox. -/
theorem exec_unplacing {r : o.Ret} (hW : s.files.Housed) (ho : o.placing = false)
    (h : o.exec s c = some (s', r)) : activeIds s'.market = activeIds s.market ∧
      ((∀ dir i, s'.files.get dir i = s.files.get dir i) ∨
        ∃ key d, o = .unlink (.user key) d ∧
          s'.files = (s.files.unlink (userDir s.cwd key.bytes) d).2) := by
  constructor
  · by_cases hstore : o.store = some .market
    · cases o <;> simp only [Op.store, Option.some.injEq, reduceCtorEq] at hstore
      case freezeTags tags =>
        cases h
        exact activeIds_freeze s.market tags
      case unfreezeTags tags =>
        cases h
        exact activeIds_unfreeze s.market tags
      all_goals cases ho
    · rw [(exec_frame h).market hstore]
  · cases files_step h with
    | same hfs => exact .inl fun dir i => by rw [hfs]
    | move src dst i doc hop => subst hop; cases ho
    | remove f i hop hfs =>
      subst hop
      cases f with
      | user key => exact .inr ⟨key, i, rfl, hfs⟩
      | _ => cases ho
    | write doc hop => subst hop; cases ho
    | mkdir f hop hfs => exact .inl fun dir i => get_mkdir_eq hW hfs i

theorem bought_of_unplacing (ho : o.placing = false) : o.bought = [] := by
  unfold Op.bought
  split
  · cases ho
  · rfl

theorem moved_of_unplacing (ho : o.placing = false) : o.moved s c = [] := by
  cases o <;> first | rfl | cases ho

theorem written_of_unplacing (ho : o.placing = false) : o.written = none := by
  cases o <;> first | rfl | cases ho

/-! ### Threads that move no documents -/

theorem unplacing_of_ordinary (h : o.ordinary = true) : o.placing = false := by
  cases o with
  | packetSend sock pkt => cases pkt <;> first | rfl | cases h
  | unlink f d => cases f <;> first | rfl | cases h
  | _ => first | rfl | cases h

/-- A command other than a purchase moves no document but out of a sandbox. -/
theorem clientLoop_unplacing {pc : Command} (h : ∀ d q, pc ≠ .buy d q) :
    (clientLoop sock key pc).op.placing = false := by
  cases pc with
  | buy d q => exact absurd rfl (h d q)
  | sell n ds q | selfRaid q => cases q <;> rfl
  | _ => exact unplacing_of_ordinary (clientLoop_ordinary rfl)

theorem eventThreadFunc_unplacing {v : EventVars} {pc : Event} (hspawn : ∀ q, pc ≠ .spawn q)
    (hage : ∀ q, pc ≠ .ageMarket q) : (eventThreadFunc v pc).op.placing = false := by
  cases pc with
  | spawn q => exact absurd rfl (hspawn q)
  | ageMarket q => exact absurd rfl (hage q)
  | raid q => cases q <;> rfl
  | _ => exact unplacing_of_ordinary (eventThreadFunc_ordinary rfl)

/-! ### Steps -/

/-- What is on the market, and what a thread has in transit to it or from it. -/
def around (s : Shared) (th : Thread) : List ℤ := activeIds s.market ++ th.carries

/-- **How a step moves documents** between the places: `T` are those listed or in transit, `R` those
whose purchase is complete. -/
inductive PlaceStep (s : Shared) (c : Choice) (o : Op) (s' : Shared) (T T' R R' : List ℤ) : Prop
  | keep (hT : T'.Perm T) (hfiles : ∀ dir i, s'.files.get dir i = s.files.get dir i)
      (hR : R'.Perm R) (hwritten : o.written = none) (hmoved : o.moved s c = [])
  | discard (key : Key) (d : ℤ) (ho : o = .unlink (.user key) d) (hT : T'.Perm T)
      (hfiles : s'.files = (s.files.unlink (userDir s.cwd key.bytes) d).2) (hR : R'.Perm R)
  | write (doc : DocFile) (ho : o = .writeMaster doc) (hT : T'.Perm (doc.docId :: T))
      (hfiles : s'.files = s.files.put (masterDir s.cwd) doc.docId doc) (hR : R'.Perm R)
  | destroy (d : ℤ) (ho : o = .unlink .master d) (hT : T.Perm (d :: T'))
      (hfiles : s'.files = (s.files.unlink (masterDir s.cwd) d).2) (hR : R'.Perm R)
  | buy (key : Key) (d : ℤ) (doc : DocFile) (ho : o = .rename .master (.user key) d)
      (hT : T.Perm (d :: T')) (hget : s.files.get (masterDir s.cwd) d = some doc)
      (hfiles : s'.files =
        (s.files.del (masterDir s.cwd) d).put (userDir s.cwd key.bytes) d doc)
      (hR : R'.Perm (d :: R)) (hmoved : o.moved s c = [d])

/-- The same for one thread. -/
abbrev ThreadPlaceStep (s : Shared) (c : Choice) (th : Thread) (o : Op) (s' : Shared)
    (th' : Thread) : Prop :=
  PlaceStep s c o s' (around s th) (around s' th') th.replies (th'.replies ++ o.bought)

/-- A step of a thread that moves no document but out of a sandbox. -/
theorem ThreadPlaceStep.quiet {r : o.Ret} (hW : s.files.Housed) (hr : o.exec s c = some (s', r))
    (ho : o.placing = false) (hcarries : th'.carries = th.carries)
    (hreplies : th'.replies = th.replies) : ThreadPlaceStep s c th o s' th' := by
  obtain ⟨hids, hfiles | ⟨key, d, rfl, hfiles⟩⟩ := exec_unplacing hW ho hr
  · refine .keep ?_ hfiles ?_ (written_of_unplacing ho) (moved_of_unplacing ho)
    · rw [around, around, hids, hcarries]
    · rw [bought_of_unplacing ho, List.append_nil, hreplies]
  · refine .discard key d rfl ?_ hfiles ?_
    · rw [around, around, hids, hcarries]
    · rw [bought_of_unplacing ho, List.append_nil, hreplies]

/-- **The step of a purchase.** -/
theorem buy_place {q : Buy} {pc' : Command} {r : (handleBuy sock key d q).op.Ret}
    (hW : s.files.Housed) (hr : (handleBuy sock key d q).op.exec s c = some (s', r))
    (hroll : ∀ slot, q ≠ .rollback slot)
    (hpc : Command.resume (.buy d) true ((handleBuy sock key d q).next r) = .cont pc') :
    ThreadPlaceStep s c (.session sock key (.buy d q)) (handleBuy sock key d q).op s'
      (.session sock key pc') := by
  cases q with
  | find =>
    refine .quiet hW hr rfl ?_ ?_ <;>
      (simp only [handleBuy] at hpc; split at hpc <;> (try split_ifs at hpc) <;> cases hpc <;> rfl)
  | count slot | lookup slot =>
    refine .quiet hW hr rfl ?_ ?_ <;>
      (simp only [handleBuy] at hpc; split at hpc <;> (try split_ifs at hpc) <;> cases hpc <;> rfl)
  | take rec off =>
    cases hr
    rcases marketTake_cases s.market d with ⟨e, he⟩ | ⟨slot, slots, hu, -, he⟩
    · simp only [handleBuy, he] at hpc ⊢
      cases e <;> cases hpc <;> exact .keep (.refl _) (fun _ _ => rfl) (.refl _) rfl rfl
    · simp only [handleBuy, he] at hpc ⊢
      cases hpc
      refine .keep ?_ (fun _ _ => rfl) (.refl _) rfl rfl
      refine List.perm_append_comm.trans ?_
      rw [around, show (Thread.session sock key (.buy d (.take rec off))).carries = [] from rfl,
        List.append_nil]
      exact (activeIds_take hu).symm
  | stat slot rec off =>
    refine .quiet hW hr rfl ?_ ?_ <;>
      (simp only [handleBuy] at hpc; split_ifs at hpc <;> cases hpc <;> rfl)
  | move slot rec off =>
    simp only [handleBuy, Op.exec] at hr
    split at hr
    · cases hr
      cases hpc
      refine .keep (.refl _) (fun _ _ => rfl) (.refl _) rfl (if_neg ?_)
      rename_i hfail
      rintro ⟨hok, hsome⟩
      rw [if_pos hok] at hfail
      rw [hfail] at hsome
      cases hsome
    · rename_i fs hfs
      cases hr
      cases hpc
      split_ifs at hfs with hok
      have hmoved : c.ok = true ∧ (s.files.rename (masterDir s.cwd) (userDir s.cwd key.bytes)
          d).isSome = true := ⟨hok, Option.isSome_iff_exists.2 ⟨fs, hfs⟩⟩
      obtain ⟨doc, hget, -, rfl⟩ := Files.rename_eq_some.1 hfs
      refine .buy key d doc rfl ?_ hget rfl (.refl _) (if_pos hmoved)
      rw [around, around, show (Thread.session sock key (.buy d (.charge slot rec off))).carries =
        [] from rfl, List.append_nil]
      exact List.perm_append_singleton d _
  | rollback slot => exact absurd rfl (hroll slot)
  | charge slot rec off =>
    cases hpc
    exact .quiet hW hr rfl rfl rfl
  | reply slot rec =>
    cases hpc
    cases hr
    exact .keep (.refl _) (fun _ _ => rfl) (.refl _) rfl rfl
  | announce =>
    cases hpc
    exact .quiet hW hr rfl rfl rfl

/-- What a program has in hand where it goes on. -/
def Next.hand {α β : Type} (f : α → List ℤ) : Next α β → List ℤ
  | .cont pc => f pc
  | _ => []

theorem around_of_nil (h : th.carries = []) : around s th = activeIds s.market := by
  rw [around, h, List.append_nil]

theorem around_of_one (h : th.carries = [d]) : (around s th).Perm (d :: activeIds s.market) := by
  rw [around, h]
  exact List.perm_append_singleton d _

/-- A document that is to be written is written. -/
theorem exec_write {r} (hworks : (Op.writeMaster doc).Works s c)
    (hr : (Op.writeMaster doc).exec s c = some (s', r)) : r = true ∧
      s' = { s with files := s.files.put (masterDir s.cwd) doc.docId doc } := by
  simp only [Op.exec, Files.write, hworks.1, hworks.2, ↓reduceIte] at hr
  cases hr
  exact ⟨rfl, rfl⟩

/-- A file that is to be removed is removed. -/
theorem exec_unlink {f : Folder} {r} (hworks : (Op.unlink f d).Works s c)
    (hr : (Op.unlink f d).exec s c = some (s', r)) :
    s' = { s with files := (s.files.unlink (f.dir s.cwd) d).2 } := by
  simp only [Op.exec, show c.ok = true from hworks, ↓reduceIte] at hr
  cases hr
  rfl

/-- **The step of a spawn.** -/
theorem spawn_place {v v' : EventVars} {q : Spawn} {pc' : Event} {r : (eventSpawnMarket q).op.Ret}
    (hW : s.files.Housed) (hr : (eventSpawnMarket q).op.exec s c = some (s', r))
    (hworks : (eventSpawnMarket q).op.Works s c) (hcarries : (Thread.event v' pc').carries =
      ((eventSpawnMarket q).next r).hand Spawn.carries) :
    ThreadPlaceStep s c (.event v (.spawn q)) (eventSpawnMarket q).op s' (.event v' pc') := by
  cases q with
  | full | tags frozen =>
    refine .quiet hW hr rfl (hcarries.trans ?_) rfl
    simp only [eventSpawnMarket]
    split_ifs <;> rfl
  | mask | docId tags | price tags d | name tags d price | announce doc =>
    exact .quiet hW hr rfl hcarries rfl
  | write doc =>
    obtain ⟨rfl, rfl⟩ := exec_write hworks hr
    refine .write doc rfl ?_ rfl (.refl _)
    rw [show around s (.event v (.spawn (.write doc))) = activeIds s.market from around_of_nil rfl]
    exact around_of_one hcarries
  | add doc =>
    have hfiles : s'.files = s.files := (exec_frame hr).files (by rintro ⟨⟩)
    rcases marketAdd_ids hr with ⟨rfl, rfl, -⟩ | ⟨rfl, -, hids⟩
    · refine .keep ?_ (fun _ _ => rfl) (.refl _) rfl rfl
      rw [around, hcarries]
      exact .refl _
    · refine .keep ?_ (fun _ _ => by rw [hfiles]) (.refl _) rfl rfl
      rw [around_of_nil hcarries]
      exact hids.trans (around_of_one rfl).symm
  | remove doc =>
    obtain rfl := exec_unlink hworks hr
    refine .destroy doc.docId rfl ?_ rfl (.refl _)
    rw [around_of_nil hcarries]
    exact around_of_one rfl

/-- **The step of the ageing.** -/
theorem age_place {v v' : EventVars} {q : AgeMarket} {pc' : Event} {r : (eventAgeMarket q).op.Ret}
    (hW : s.files.Housed) (hlen : s.market.slots.length ≤ maxMarketSlots)
    (hr : (eventAgeMarket q).op.exec s c = some (s', r))
    (hworks : (eventAgeMarket q).op.Works s c) (hcarries : (Thread.event v' pc').carries =
      ((eventAgeMarket q).next r).hand AgeMarket.carries) :
    ThreadPlaceStep s c (.event v (.ageMarket q)) (eventAgeMarket q).op s' (.event v' pc') := by
  have hnext : ∀ ids, (AgeMarket.removeNext ids).hand AgeMarket.carries = ids := by
    intro ids
    cases ids <;> rfl
  cases q with
  | despawn =>
    cases hr
    refine .keep ?_ (fun _ _ => rfl) (.refl _) rfl rfl
    have hids : (Thread.event v' pc').carries = _ := hcarries.trans (hnext _)
    rw [around, hids, around_of_nil rfl]
    exact List.perm_append_comm.trans (activeIds_despawn hlen s.clock).symm
  | remove d todo =>
    obtain rfl := exec_unlink hworks hr
    refine .destroy d rfl ?_ rfl (.refl _)
    rw [around, around, hcarries]
    exact List.perm_middle
  | announce d todo => exact .quiet hW hr rfl (hcarries.trans (hnext todo)) rfl

/-- **The step of the seeding.** -/
theorem seed_place {q : Seed} {pc' : Main} {r : (seedMarketAndNpc q).op.Ret}
    (hW : s.files.Housed) (hroom : q.docs.length ≤ s.market.slots.countP fun slot => !slot.active)
    (hr : (seedMarketAndNpc q).op.exec s c = some (s', r))
    (hworks : (seedMarketAndNpc q).op.Works s c) (hcarries : (Thread.main pc').carries =
      ((seedMarketAndNpc q).next r).hand Seed.carries) :
    ThreadPlaceStep s c (.main (.seed q)) (seedMarketAndNpc q).op s' (.main pc') := by
  cases q with
  | write doc todo =>
    obtain ⟨-, rfl⟩ := exec_write hworks hr
    refine .write doc rfl ?_ rfl (.refl _)
    rw [show around s (.main (.seed (.write doc todo))) = activeIds s.market from around_of_nil rfl]
    exact around_of_one hcarries
  | add doc todo =>
    have hnone : (Thread.main pc').carries = [] := by
      rw [hcarries]
      cases todo <;> rfl
    have hfiles : s'.files = s.files := (exec_frame hr).files (by rintro ⟨⟩)
    refine .keep ?_ (fun _ _ => by rw [hfiles]) (.refl _) rfl rfl
    rw [around_of_nil hnone]
    rcases marketAdd_ids hr with ⟨-, -, hfull⟩ | ⟨-, -, hids⟩
    · -- there is room for the seeds
      obtain ⟨slot, hslot, hfree⟩ := List.countP_pos_iff.1 (Nat.lt_of_lt_of_le (by simp [Seed.docs])
        hroom)
      have hactive := List.all_eq_true.1 hfull slot hslot
      rw [hactive] at hfree
      cases hfree
    · exact hids.trans (around_of_one rfl).symm
  | npc n todo =>
    refine .quiet hW hr rfl (hcarries.trans ?_) rfl
    cases todo <;> rfl

/-- The thread may move documents. -/
def Thread.mayMove : Thread → Bool
  | .main .marketInit | .main (.seed _) | .session _ _ (.buy _ _) | .event _ (.spawn _)
  | .event _ (.ageMarket _) | .roundEndTimer (.reset _) => true
  | _ => false

theorem hands_of_still (h : th.mayMove = false) : th.carries = [] ∧ th.replies = [] := by
  cases th with
  | main pc => cases pc <;> first | exact ⟨rfl, rfl⟩ | cases h
  | session sock key pc => cases pc <;> first | exact ⟨rfl, rfl⟩ | cases h
  | event v pc => cases pc <;> first | exact ⟨rfl, rfl⟩ | cases h
  | _ => exact ⟨rfl, rfl⟩

theorem unplacing_of_still (h : th.mayMove = false) (ha : th.action = some a) :
    a.op.placing = false := by
  cases th with
  | main pc =>
    cases ha
    cases pc <;> first | rfl | cases h
  | session sock key pc =>
    cases ha
    refine clientLoop_unplacing fun d q hpc => ?_
    subst hpc
    cases h
  | event v pc =>
    cases ha
    refine eventThreadFunc_unplacing (fun q hpc => ?_) fun q hpc => ?_ <;> subst hpc <;> cases h
  | raidTimeout serial pc =>
    cases ha
    cases pc with
    | burn key todo q => exact unplacing_of_ordinary (burnUserByKey_ordinary key q)
    | _ => rfl
  | roundEndTimer pc =>
    cases ha
    cases pc <;> first | rfl | cases h
  | login sock pc | disconnect sock pc | npcSequence pc | leakRecovery mask dur pc =>
    cases ha
    cases pc <;> rfl
  | finished => cases ha

/-- A thread that may not move documents has none in hand after its step. -/
theorem hands_after_still (h : th.mayMove = false) (ha : th.action = some a)
    (hs : a.Steps s c s' th') : th'.carries = [] ∧ th'.replies = [] := by
  have ho := thread_origin ha hs
  cases th' with
  | main pc' =>
    obtain ⟨pc, rfl, r, -, hn⟩ := ho
    cases pc' with
    | seed q' =>
      cases pc with
      | npcInit =>
        cases hn
        exact ⟨rfl, rfl⟩
      | startEvents | add sock =>
        simp only [mainThread] at hn
        split_ifs at hn <;> cases hn
      | accept | reject sock => cases hn
      | marketInit | seed q => cases h
    | _ => exact ⟨rfl, rfl⟩
  | session sock key pc' =>
    rcases ho with ⟨pc, rfl, hs⟩ | ⟨rfl, -⟩
    · have ho := session_origin hs
      cases pc' with
      | buy d q' =>
        rcases ho with ⟨rfl, -⟩ | ⟨q, rfl, -⟩
        · exact ⟨rfl, rfl⟩
        · cases h
      | _ => exact ⟨rfl, rfl⟩
    · exact ⟨rfl, rfl⟩
  | event v' pc' =>
    obtain ⟨v, pc, rfl, hs⟩ := ho
    have ho := event_origin hs
    cases pc' with
    | spawn q' =>
      rcases ho with rfl | ⟨q, rfl, -⟩
      · exact ⟨rfl, rfl⟩
      · cases h
    | ageMarket q' =>
      rcases ho with rfl | ⟨q, rfl, -⟩
      · exact ⟨rfl, rfl⟩
      · cases h
    | _ => exact ⟨rfl, rfl⟩
  | _ => exact ⟨rfl, rfl⟩

/-- The main thread may set up now: the market is empty, or has room for the seeds. -/
def Thread.Roomy (s : Shared) : Thread → Prop
  | .main .marketInit => activeIds s.market = []
  | .main .npcInit => seedDocs.length ≤ s.market.slots.countP fun slot => !slot.active
  | .main (.seed pc) => pc.docs.length ≤ s.market.slots.countP fun slot => !slot.active
  | _ => True

theorem carries_afterSpawn (v v' : EventVars) : (Thread.event v' (Event.afterSpawn v)).carries =
    [] := by
  unfold Event.afterSpawn Event.afterNpc
  split_ifs <;> rfl

/-- **How a step moves documents**, for every thread. -/
theorem place_step (hW : s.files.Housed) (hlen : s.market.slots.length ≤ maxMarketSlots)
    (hroom : th.Roomy s) (hreset : th.resets = false) (hroll : th.rollback = none)
    (ha : th.action = some a) {r : a.op.Ret} (hr : a.op.exec s c = some (s', r))
    (hworks : a.op.Works s c) : ThreadPlaceStep s c th a.op s' (a.next r) := by
  rcases hstill : th.mayMove with _ | _
  · obtain ⟨hcarries, hreplies⟩ := hands_of_still hstill
    obtain ⟨hcarries', hreplies'⟩ := hands_after_still hstill ha ⟨r, hr, rfl⟩
    exact .quiet hW hr (unplacing_of_still hstill ha) (hcarries'.trans hcarries.symm)
      (hreplies'.trans hreplies.symm)
  cases th with
  | main pc =>
    cases ha
    cases pc with
    | marketInit =>
      cases hr
      refine .keep ?_ (fun _ _ => rfl) (.refl _) rfl rfl
      rw [around_of_nil rfl, around_of_nil rfl, show activeIds s.market = [] from hroom]
      exact activeIds_marketInit ▸ .refl _
    | seed q =>
      have hstep := fun pc' hcarries =>
        (seed_place hW hroom hr hworks hcarries : ThreadPlaceStep s c _ _ s' (.main pc'))
      simp only [Action.map, mainThread] at hstep ⊢
      rcases hn : (seedMarketAndNpc q).next r with q' | _ | _ <;> simp only [hn] at hstep ⊢ <;>
        exact hstep _ rfl
    | _ => cases hstill
  | session sock key pc =>
    cases ha
    cases pc with
    | buy d q =>
      obtain ⟨pc', hpc'⟩ : ∃ pc', Command.resume (.buy d) true ((handleBuy sock key d q).next r) =
          .cont pc' := by
        cases (handleBuy sock key d q).next r <;> exact ⟨_, rfl⟩
      have hstep := buy_place hW hr (fun slot hq => by subst hq; cases hroll) hpc'
      simp only [Action.map, clientLoop, hpc'] at hstep ⊢
      exact hstep
    | _ => cases hstill
  | event v pc =>
    cases ha
    cases pc with
    | spawn q =>
      have hstep := fun (v' : EventVars) pc' hcarries =>
        (spawn_place (v := v) hW hr hworks hcarries : ThreadPlaceStep s c _ _ s' (.event v' pc'))
      simp only [Action.map, eventThreadFunc] at hstep ⊢
      rcases hn : (eventSpawnMarket q).next r with q' | _ | _ <;> simp only [hn] at hstep ⊢
      · exact hstep v _ rfl
      · exact hstep v _ (carries_afterSpawn v v)
      · exact hstep v _ (carries_afterSpawn v v)
    | ageMarket q =>
      have hstep := fun (v' : EventVars) pc' hcarries =>
        (age_place (v := v) hW hlen hr hworks hcarries : ThreadPlaceStep s c _ _ s' (.event v' pc'))
      simp only [Action.map, eventThreadFunc] at hstep ⊢
      rcases hn : (eventAgeMarket q).next r with q' | _ | _ <;> simp only [hn] at hstep ⊢ <;>
        exact hstep v _ rfl
    | _ => cases hstill
  | roundEndTimer pc =>
    cases pc with
    | reset q => cases hreset
    | _ => cases hstill
  | _ => cases hstill

end UnderFlow
