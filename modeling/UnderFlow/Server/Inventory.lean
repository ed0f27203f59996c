import UnderFlow.Server.Documents
import UnderFlow.Server.Ledger

/-!
# The inventory limit

A purchase counts the documents of the sandbox before it takes the listing and moves the file.

* `InvenKept` : no sandbox holds more than `MAX_INVEN_SIZE` documents, and every
  `PKT_RES_INVEN_INFO` lists the documents that are there.
* `InvenGuard` : a full sandbox can be counted and a sandbox can be listed, and no document leaves
  it while it is listed.
* `docs_step` : how the documents of a sandbox change.
* `invenKept_of_guard` : then `InvenKept` holds in every state of a run.
* `not_invenKept` : the eighth document is bought when the sandbox cannot be opened.
-/

namespace UnderFlow

variable {s s' : Shared} {c : Choice} {th th' u : Thread} {a : Action Thread} {o : Op}
  {p p' : Server} {l : Label} {key k : Key} {sock t : ℕ} {d : Dir} {i : ℤ} {fs : Files}

/-! ### Inventories of a sandbox -/

/-- The documents in the sandbox of a key. -/
def sandboxDocs (s : Shared) (key : Key) : List (ℤ × DocFile) :=
  s.files.docs (userDir s.cwd key.bytes)

/-- The items are those of the documents of a directory: as many, and one for each. -/
structure Lists (fs : Files) (d : Dir) (items : List InvenItem) : Prop where
  room : items.length ≤ maxInvenSize
  count : items.length = (fs.docs d).length
  all : ∀ i doc, fs.get d i = some doc → ∃ item ∈ items, item.docId = doc.docId

/-- The items of a `PKT_RES_INVEN_INFO`. -/
def Op.inven : Op → Option (List InvenItem)
  | .packetSend _ (.invenInfo items _) => some items
  | _ => none

/-- No sandbox holds more documents than the inventory, and what is sent as an inventory is the
content of the sandbox. -/
structure InvenKept (p : Server) : Prop where
  room : ∀ key : Key, key.Plain → (sandboxDocs p.shared key).length ≤ maxInvenSize
  listed : ∀ u ∈ p.threads, ∀ a, u.action = some a → ∀ items, a.op.inven = some items →
    ∃ sock key pc, u = .session sock key pc ∧
      Lists p.shared.files (userDir p.shared.cwd key.bytes) items

/-! ### When it holds -/

/-- The listing a command is at. -/
def Command.list : Command → Option SandboxList
  | .inventory (.list q) | .rumor _ (.inventory (.list q)) | .fakeRich (.list _ q) => some q
  | _ => none

/-- The list a command is about to send. -/
def Command.items : Command → Option (List InvenItem)
  | .inventory (.lookup items) | .inventory (.send items _) => some items
  | .rumor _ (.inventory (.lookup items)) | .rumor _ (.inventory (.send items _)) => some items
  | .fakeRich (.send _ items) => some items
  | _ => none

/-- The sandbox a purchase is about to count. -/
def Thread.countsRoom : Thread → Option Key
  | .session _ key (.buy _ (.count _)) => some key
  | _ => none

/-- The sandbox of which a listing is about to open the directory or a file. -/
def Thread.reads : Thread → Option Key
  | .session _ key pc =>
    match pc.list with
    | some .opendir | some (.read _ _ _) => some key
    | _ => none
  | _ => none

/-- The sandbox of which a listing has read the directory, until it is sent. -/
def Thread.listing : Thread → Option Key
  | .session _ key pc =>
    match pc.list with
    | some (.read _ _ _) | some (.mark _ _ _) => some key
    | _ => pc.items.map fun _ => key
  | _ => none

/-- The operation takes a document out of a directory, if it succeeds. -/
def Op.takes (s : Shared) (d : Dir) : Op → Bool
  | .unlink f docId => decide (f.dir s.cwd = d) && (s.files.get d docId).isSome
  | _ => false

/-- Every key is plain, and has one session at most. -/
structure InvenScope (p : Server) (l : Label) : Prop where
  single : (p.threads.filterMap Thread.player).Nodup
  plain : ∀ key ∈ p.threads.filterMap Thread.player, key.Plain

/-- Within the scope, a full sandbox can be counted, the files that are listed can be opened, and
nothing leaves a sandbox while it is listed. -/
structure InvenGuard (p : Server) (l : Label) : Prop where
  scope : InvenScope p l
  counted : ∀ th ∈ threadAt p l, ∀ key ∈ th.countsRoom,
    (choiceOf l).ok = true ∨ (sandboxDocs p.shared key).length < maxInvenSize
  opened : ∀ th ∈ threadAt p l, ∀ key ∈ th.reads,
    (choiceOf l).ok = true ∨ (sandboxDocs p.shared key).length = 0
  settled : ∀ o ∈ opAt p l, ∀ u ∈ p.threads, ∀ key ∈ u.listing,
    (choiceOf l).ok = true → o.takes p.shared (userDir p.shared.cwd key.bytes) = false

instance (p : Server) (l : Label) : Decidable (InvenScope p l) :=
  decidable_of_iff (_ ∧ _) ⟨fun h => ⟨h.1, h.2⟩, fun h => ⟨h.single, h.plain⟩⟩

instance (p : Server) (l : Label) : Decidable (InvenGuard p l) :=
  decidable_of_iff (_ ∧ _ ∧ _ ∧ _) ⟨fun h => ⟨h.1, h.2.1, h.2.2.1, h.2.2.2⟩,
    fun h => ⟨h.scope, h.counted, h.opened, h.settled⟩⟩

/-! ### How the documents of a sandbox change -/

/-- Only a purchase moves a file: from the master directory to the sandbox of the buyer. -/
theorem rename_op {src dst : Folder} (ha : th.action = some a) (ho : a.op = .rename src dst i) :
    ∃ sock key slot rec off, th = .session sock key (.buy i (.move slot rec off)) ∧
      src = .master ∧ dst = .user key := by
  cases th with
  | session sock key pc =>
    cases ha
    cases pc with
    | buy docId q =>
      cases q with
      | move slot rec off =>
        cases ho
        exact ⟨sock, key, slot, rec, off, rfl, rfl, rfl⟩
      | _ => cases ho
    -- no other program moves a file
    | sell _ _ q | dispose _ q | bankruptcy q | selfRaid q | leak q | endround q =>
      cases q <;> cases ho
    | inventory q =>
      cases q with
      | list q => cases q <;> cases ho
      | _ => cases ho
    | rumor _ q =>
      cases q with
      | inventory q =>
        cases q with
        | list q => cases q <;> cases ho
        | _ => cases ho
      | _ => cases ho
    | fakeRich q =>
      cases q with
      | list _ q => cases q <;> cases ho
      | _ => cases ho
    | payoff q =>
      cases q with
      | purge _ _ _ q | roundEnd q => cases q <;> cases ho
      | _ => cases ho
    | minigame _ q =>
      cases q with
      | burn _ q =>
        cases q with
        | purge q => cases q <;> cases ho
        | _ => cases ho
      | _ => cases ho
    | _ => cases ho
  | main pc =>
    cases ha
    cases pc with
    | seed q => cases q <;> cases ho
    | _ => cases ho
  | login sock pc | disconnect sock pc | npcSequence pc | leakRecovery _ _ pc =>
    cases ha
    cases pc <;> cases ho
  | event v pc =>
    cases ha
    cases pc with
    | roundEnd q | ageNpcs q | ageMarket q | raid q | leak q | spawn q => cases q <;> cases ho
    | _ => cases ho
  | raidTimeout serial pc =>
    cases ha
    cases pc with
    | burn _ _ q =>
      cases q with
      | purge q => cases q <;> cases ho
      | _ => cases ho
    | _ => cases ho
  | roundEndTimer pc =>
    cases ha
    cases pc with
    | reset q =>
      cases q with
      | masterPurge q | userPurge _ _ q | seed q => cases q <;> cases ho
      | _ => cases ho
    | _ => cases ho
  | finished => cases ha

/-- How the documents of the sandbox of a plain key change. -/
inductive DocsStep (s : Shared) (c : Choice) (th : Thread) (o : Op) (s' : Shared) (k : Key) : Prop
  | same (h : sandboxDocs s' k = sandboxDocs s k)
  | removed (i : ℤ) (ho : o.takes s (userDir s.cwd k.bytes) = true) (hok : c.ok = true)
      (h : sandboxDocs s' k = (sandboxDocs s k).filter fun e => e.1 ≠ i)
  | created (hdir : userDir s.cwd k.bytes ∉ s.files.dirs) (h : sandboxDocs s' k = [])
  | bought (sock : ℕ) (key : Key) (i : ℤ) (slot : MarketSlot) (rec : UserRecord) (off : ℕ)
      (doc : DocFile) (hth : th = .session sock key (.buy i (.move slot rec off)))
      (hkey : userDir s.cwd key.bytes = userDir s.cwd k.bytes)
      (hdir : userDir s.cwd k.bytes ∈ s.files.dirs)
      (h : sandboxDocs s' k = (i, doc) :: (sandboxDocs s k).filter fun e => e.1 ≠ i)

/-- A file that was removed was there, and the call has succeeded. -/
theorem unlink_step {f : Folder} {r : o.Ret} (ho : o = .unlink f i)
    (h : o.exec s c = some (s', r)) : s'.files = s.files ∨
      (c.ok = true ∧ (s.files.get (f.dir s.cwd) i).isSome = true ∧
        s'.files = s.files.del (f.dir s.cwd) i) := by
  subst ho
  simp only [Op.exec] at h
  split_ifs at h with hok <;> cases h
  · simp only [Files.unlink]
    split
    · exact .inl rfl
    · rename_i doc hget
      exact .inr ⟨hok, by rw [hget]; rfl, rfl⟩
  · exact .inl rfl

theorem rename_dir {src dst : Folder} {r : o.Ret} (ho : o = .rename src dst i)
    (h : o.exec s c = some (s', r)) : s'.files = s.files ∨ dst.dir s.cwd ∈ s.files.dirs := by
  subst ho
  simp only [Op.exec] at h
  split at h <;> cases h
  · exact .inl rfl
  · rename_i fs hfs
    split_ifs at hfs
    obtain ⟨_, -, hdst, -⟩ := Files.rename_eq_some.1 hfs
    exact .inr hdst

/-- **How the documents of a sandbox change.** -/
theorem docs_step (ha : th.action = some a) {r : a.op.Ret} (hr : a.op.exec s c = some (s', r))
    (hk : k.Plain) : DocsStep s c th a.op s' k := by
  have hcwd : s'.cwd = s.cwd := (exec_frame hr).cwd
  have hmaster : userDir s.cwd k.bytes ≠ masterDir s.cwd := userDir_ne_masterDir hk
  have hof : ∀ {ds}, s'.files.docs (userDir s.cwd k.bytes) = ds → sandboxDocs s' k = ds := by
    intro ds h
    rw [sandboxDocs, hcwd, h]
  cases files_step hr with
  | same hfs => exact .same (hof (by rw [hfs]; rfl))
  | write doc _ hfs =>
    refine .same (hof ?_)
    rw [hfs, docs_put, if_neg hmaster]
    rfl
  | mkdir f _ hfs =>
    simp only [Files.mkdir] at hfs
    split_ifs at hfs with hdir <;> replace hfs := (Option.some.inj hfs).symm
    · exact .same (hof (by rw [hfs]; rfl))
    · by_cases hd : userDir s.cwd k.bytes = f.dir s.cwd
      · refine .created (by rwa [hd]) (hof ?_)
        rw [hfs, hd]
        exact Function.update_self ..
      · refine .same (hof ?_)
        rw [hfs]
        exact Function.update_of_ne hd ..
  | remove f i ho =>
    rcases unlink_step ho hr with hfs | ⟨hok, hget, hfs⟩
    · exact .same (hof (by rw [hfs]; rfl))
    · by_cases hd : f.dir s.cwd = userDir s.cwd k.bytes
      · refine .removed i ?_ hok (hof ?_)
        · rw [ho, Op.takes, decide_eq_true hd, Bool.true_and, ← hd]
          exact hget
        · rw [hfs, hd, docs_del, if_pos rfl]
          rfl
      · refine .same (hof ?_)
        rw [hfs, docs_del, if_neg (Ne.symm hd)]
        rfl
  | move src dst i doc ho hget hfs =>
    have hdir := rename_dir ho hr
    obtain ⟨sock, key, slot, rec, off, rfl, rfl, rfl⟩ := rename_op ha ho
    have hsrc : userDir s.cwd k.bytes ≠ Folder.dir s.cwd .master := hmaster
    rcases hdir with hsame | hdir
    · exact .same (hof (by rw [hsame]; rfl))
    · by_cases hd : userDir s.cwd k.bytes = userDir s.cwd key.bytes
      · refine .bought sock key i slot rec off doc rfl hd.symm (by rw [hd]; exact hdir) (hof ?_)
        have hd' : userDir s.cwd k.bytes = Folder.dir s.cwd (.user key) := hd
        rw [hfs, docs_put, if_pos hd', docs_del, if_neg hsrc]
        rfl
      · refine .same (hof ?_)
        have hd' : userDir s.cwd k.bytes ≠ Folder.dir s.cwd (.user key) := hd
        rw [hfs, docs_put, if_neg hd', docs_del, if_neg hsrc]
        rfl

/-! ### A listing under way -/

/-- The files that are read and those still to be read make up the directory. -/
def Listing (fs : Files) (d : Dir) : SandboxList → Prop
  | .opendir => True
  | .read docId todo items =>
    items.length + (docId :: todo).length = (fs.docs d).length ∧
      (∀ i ∈ docId :: todo, (fs.get d i).isSome = true) ∧
      ∀ i doc, fs.get d i = some doc → i ∈ docId :: todo ∨ ∃ item ∈ items, item.docId = doc.docId
  | .mark item todo marked => Lists fs d (marked ++ item :: todo)

variable {q q' : SandboxList} {items todo marked : List InvenItem} {ids : List ℤ}

/-- Marking changes no number. -/
theorem Lists.mark {item : InvenItem} (frozen : Bool) (h : Lists fs d (marked ++ item :: todo)) :
    Lists fs d ((marked ++ [{ item with isFrozen := frozen }]) ++ todo) := by
  have hlen : ((marked ++ [{ item with isFrozen := frozen }]) ++ todo).length =
      (marked ++ item :: todo).length := by simp
  refine ⟨by rw [hlen]; exact h.room, by rw [hlen]; exact h.count, fun i doc hget => ?_⟩
  · obtain ⟨it, hit, hid⟩ := h.all i doc hget
    rcases List.mem_append.1 hit with hit | hit
    · exact ⟨it, by simp [hit], hid⟩
    · rcases List.mem_cons.1 hit with rfl | hit
      · exact ⟨{ it with isFrozen := frozen }, by simp, hid⟩
      · exact ⟨it, by simp [hit], hid⟩

/-- The next item to mark, or the list. -/
theorem markNext_lists (h : Lists fs d (marked ++ todo)) :
    (∃ q', SandboxList.markNext marked todo = .cont q' ∧ Listing fs d q') ∨
      (SandboxList.markNext marked todo = .ret marked ∧ Lists fs d marked) := by
  cases todo with
  | nil =>
    rw [List.append_nil] at h
    exact .inr ⟨rfl, h⟩
  | cons item todo => exact .inl ⟨_, rfl, h⟩

/-- The next file to read, when there is room for all of them. -/
theorem readNext_lists (hroom : (fs.docs d).length ≤ maxInvenSize)
    (hcount : items.length + ids.length = (fs.docs d).length)
    (hthere : ∀ i ∈ ids, (fs.get d i).isSome = true)
    (hall : ∀ i doc, fs.get d i = some doc → i ∈ ids ∨ ∃ item ∈ items, item.docId = doc.docId) :
    (∃ q', SandboxList.readNext items ids = .cont q' ∧ Listing fs d q') ∨
      ∃ items', SandboxList.readNext items ids = .ret items' ∧ Lists fs d items' := by
  cases ids with
  | nil =>
    have hlists : Lists fs d ([] ++ items) :=
      ⟨by rw [← hcount] at hroom; exact hroom, hcount,
        fun i doc hget => (hall i doc hget).resolve_left List.not_mem_nil⟩
    rcases markNext_lists hlists with h | ⟨h, hl⟩
    · exact .inl h
    · exact .inr ⟨_, h, hl⟩
  | cons docId todo =>
    have hlt : items.length < maxInvenSize := by
      rw [List.length_cons] at hcount
      omega
    refine .inl ⟨.read docId todo items, ?_, hcount, hthere, hall⟩
    simp only [SandboxList.readNext, if_pos hlt]

/-- **A step of a listing**, while the sandbox stays as it is and its files can be opened. -/
theorem sandboxList_lists (hL : Listing s.files (userDir s.cwd key.bytes) q)
    (hroom : (sandboxDocs s key).length ≤ maxInvenSize)
    (hdir : userDir s.cwd key.bytes ∉ s.files.dirs → sandboxDocs s key = [])
    (hok : (q = .opendir ∨ ∃ i ids items, q = .read i ids items) →
      c.ok = true ∨ (sandboxDocs s key).length = 0)
    {n : Next SandboxList (List InvenItem)} (h : (sandboxList key q).Steps s c s' n) :
    s' = s ∧ ((∃ q', n = .cont q' ∧ Listing s.files (userDir s.cwd key.bytes) q') ∨
      ∃ items, n = .ret items ∧ Lists s.files (userDir s.cwd key.bytes) items) := by
  obtain ⟨r, hr, hn⟩ := h
  cases q with
  | opendir =>
    have hnil : sandboxDocs s key = [] → Lists s.files (userDir s.cwd key.bytes) [] := by
      intro hnil
      refine ⟨Nat.zero_le _, by rw [show s.files.docs _ = [] from hnil]; rfl, fun i doc hget => ?_⟩
      rw [docs_eq_nil.1 hnil i] at hget
      cases hget
    have hsplit : c.ok = true ∨ sandboxDocs s key = [] :=
      (hok (.inl rfl)).imp id List.eq_nil_of_length_eq_zero
    simp only [sandboxList, Op.exec, Option.some.injEq] at hr
    obtain ⟨rfl, rfl⟩ := hr
    refine ⟨rfl, ?_⟩
    by_cases hc : c.ok = true
    · rw [if_pos hc] at hn
      rcases hids : s.files.opendir (userDir s.cwd key.bytes) with _ | ids
      · have hno : userDir s.cwd key.bytes ∉ s.files.dirs := by
          intro hin
          simp [Files.opendir, hin] at hids
        refine .inr ⟨[], ?_, hnil (hdir hno)⟩
        rw [hn]
        simp [sandboxList, Folder.dir, hids]
      · have hmem := fun i => Files.mem_opendir (i := i) hids
        have hlen : ids.length = (sandboxDocs s key).length := by
          simp only [Files.opendir] at hids
          split_ifs at hids
          cases hids
          rw [List.length_map]
          rfl
        -- the order of the directory does not matter
        have hperm : (readdirOrder c.order ids).Perm ids := by
          rw [readdirOrder]
          split_ifs with h
          · exact List.isPerm_iff.1 h
          · exact .refl _
        have hn' : n = SandboxList.readNext [] (readdirOrder c.order ids) := by
          rw [hn]
          simp [sandboxList, Folder.dir, hids]
        rw [hn']
        refine readNext_lists hroom ?_ (fun i hi => (hmem i).1 (hperm.mem_iff.1 hi))
          fun i doc hget => .inl (hperm.mem_iff.2 ((hmem i).2 (by rw [hget]; rfl)))
        rw [hperm.length_eq, hlen, List.length_nil, Nat.zero_add]
        rfl
    · rw [if_neg hc] at hn
      exact .inr ⟨[], hn, hnil (hsplit.resolve_left hc)⟩
  | read docId todo items =>
    obtain ⟨hcount, hthere, hall⟩ := hL
    have hc : c.ok = true := by
      refine (hok (.inr ⟨_, _, _, rfl⟩)).resolve_right fun h0 => ?_
      rw [List.length_cons] at hcount
      have : (s.files.docs (userDir s.cwd key.bytes)).length = 0 := h0
      omega
    obtain ⟨doc, hdoc⟩ := Option.isSome_iff_exists.1 (hthere docId List.mem_cons_self)
    simp only [sandboxList, Op.exec, Folder.dir, hc, if_true, hdoc, Option.some.injEq] at hr
    obtain ⟨rfl, rfl⟩ := hr
    refine ⟨rfl, ?_⟩
    rw [hn]
    refine readNext_lists hroom ?_ (fun i hi => hthere i (List.mem_cons_of_mem _ hi))
      fun i doc' hget => ?_
    · rw [← hcount]
      simp only [List.length_append, List.length_cons, List.length_nil]
      omega
    -- the file just read is listed, the others as before
    · rcases hall i doc' hget with hi | ⟨item, hitem, hid⟩
      · rcases List.mem_cons.1 hi with rfl | hi
        · rw [hdoc] at hget
          cases hget
          exact .inr ⟨_, List.mem_append_right _ List.mem_cons_self, rfl⟩
        · exact .inl hi
      · exact .inr ⟨item, List.mem_append_left _ hitem, hid⟩
  | mark item todo marked =>
    cases hr
    refine ⟨rfl, ?_⟩
    rw [hn]
    rcases markNext_lists (Lists.mark _ hL) with h | h
    · exact .inl h
    · exact .inr ⟨_, h⟩

/-! ### A command under way -/

/-- What a listing under way has read is in the directory. -/
def Inventory.Stocked (fs : Files) (d : Dir) : Inventory → Prop
  | .list q => Listing fs d q
  | .lookup items | .send items _ => Lists fs d items

/-- What a command knows of the sandbox of its player. -/
def Command.Stocked (fs : Files) (d : Dir) : Command → Prop
  | .inventory q | .rumor _ (.inventory q) => q.Stocked fs d
  | .fakeRich (.list _ q) => Listing fs d q
  | .fakeRich (.send _ items) => Lists fs d items
  | .buy _ (.lookup _) | .buy _ (.take _ _) | .buy _ (.stat _ _ _) | .buy _ (.move _ _ _) =>
    (fs.docs d).length < maxInvenSize
  | _ => True

/-- What a session has read is in its sandbox. -/
def Thread.Stocked (s : Shared) : Thread → Prop
  | .session _ key pc => pc.Stocked s.files (userDir s.cwd key.bytes)
  | _ => True

/-- What is known of every sandbox. -/
def Roomy (s : Shared) : Prop := ∀ key : Key, key.Plain →
  (sandboxDocs s key).length ≤ maxInvenSize ∧
    (userDir s.cwd key.bytes ∉ s.files.dirs → sandboxDocs s key = [])

variable {pc pc' : Command}

/-- A listing that is about to open something is guarded. -/
theorem reads_of_list (hlist : pc.list = some q)
    (hq : q = .opendir ∨ ∃ i ids items, q = .read i ids items) :
    (Thread.session sock key pc).reads = some key := by
  rcases hq with rfl | ⟨i, ids, items, rfl⟩ <;> simp only [Thread.reads, hlist]

section Own

variable (hR : (sandboxDocs s key).length ≤ maxInvenSize ∧
    (userDir s.cwd key.bytes ∉ s.files.dirs → sandboxDocs s key = []))
  (hopen : (Thread.session sock key pc).reads = some key →
    c.ok = true ∨ (sandboxDocs s key).length = 0)

include hR hopen

/-- A step of the listing of a command. -/
theorem list_stocked (hlist : pc.list = some q)
    (hL : Listing s.files (userDir s.cwd key.bytes) q) {n : Next SandboxList (List InvenItem)}
    (h : (sandboxList key q).Steps s c s' n) :
    s' = s ∧ ((∃ q', n = .cont q' ∧ Listing s.files (userDir s.cwd key.bytes) q') ∨
      ∃ items, n = .ret items ∧ Lists s.files (userDir s.cwd key.bytes) items) :=
  sandboxList_lists hL hR.1 hR.2 (fun hq => hopen (reads_of_list hlist hq)) h

theorem inventory_stocked {v v' : Inventory} (hlist : ∀ q, v = .list q → pc.list = some q)
    (hv : v.Stocked s.files (userDir s.cwd key.bytes))
    (h : (handleInventory sock key v).Steps s c s' (.cont v')) :
    s'.cwd = s.cwd ∧ v'.Stocked s'.files (userDir s.cwd key.bytes) := by
  cases v with
  | list q =>
    obtain ⟨n, hn, he⟩ := Action.steps_map.1 h
    obtain ⟨rfl, ⟨q', rfl, hL⟩ | ⟨items, rfl, hL⟩⟩ :=
      list_stocked hR hopen (hlist q rfl) hv hn <;> cases he <;> exact ⟨rfl, hL⟩
  | lookup items =>
    have hfiles : s'.files = s.files := h.frame.files (by simp [handleInventory])
    refine ⟨h.frame.cwd, ?_⟩
    obtain ⟨r, -, hn⟩ := h
    rw [hfiles]
    rcases r with _ | _ <;> cases hn <;> exact hv
  | send items money =>
    obtain ⟨r, -, hn⟩ := h
    cases hn

/-- **The step of a session**: what it knows of its sandbox. -/
theorem session_stocked (hcount : (Thread.session sock key pc).countsRoom = some key →
      c.ok = true ∨ (sandboxDocs s key).length < maxInvenSize)
    (hpc : pc.Stocked s.files (userDir s.cwd key.bytes))
    (h : (clientLoop sock key pc).Steps s c s' (.cont pc')) :
    pc'.Stocked s'.files (userDir s'.cwd key.bytes) := by
  rw [h.frame.cwd]
  have ho := session_origin h
  cases pc' with
  | inventory v' =>
    rcases ho with ⟨rfl, -⟩ | ⟨v, rfl, hv⟩
    · trivial
    · refine (inventory_stocked hR hopen ?_ hpc hv).2
      rintro q rfl
      rfl
  | rumor k w' =>
    rcases ho with ⟨rfl, -⟩ | ⟨w, rfl, hw⟩
    · trivial
    · cases w' with
      | inventory v' =>
        cases w with
        | inventory v =>
          obtain ⟨n, hn, he⟩ := Action.steps_map.1 hw
          rcases n with v'' | _ | _ <;> cases he
          refine (inventory_stocked hR hopen ?_ hpc hn).2
          rintro q rfl
          rfl
        | glitch =>
          obtain ⟨r, -, hn⟩ := hw
          cases hn
          trivial
        | enter | lookup now =>
          obtain ⟨r, -, hn⟩ := hw
          simp only [handleRumor] at hn
          split at hn <;> (try split_ifs at hn) <;> cases hn
        | _ =>
          obtain ⟨r, -, hn⟩ := hw
          cases hn
      | _ => trivial
  | fakeRich w' =>
    rcases ho with ⟨rfl, -⟩ | ⟨w, rfl, hw⟩
    · trivial
    · cases w with
      | update rec off =>
        obtain ⟨r, -, hn⟩ := hw
        cases hn
        trivial
      | list rec q =>
        obtain ⟨n, hn, he⟩ := Action.steps_map.1 hw
        obtain ⟨rfl, ⟨q', rfl, hL⟩ | ⟨items, rfl, hL⟩⟩ :=
          list_stocked hR hopen rfl hpc hn <;> cases he <;> exact hL
      | lookup =>
        obtain ⟨r, -, hn⟩ := hw
        rcases r with _ | _ <;> cases hn
        trivial
      | _ =>
        obtain ⟨r, -, hn⟩ := hw
        cases hn <;> trivial
  | buy docId w' =>
    rcases ho with ⟨rfl, -⟩ | ⟨w, rfl, hw⟩
    · trivial
    -- a purchase changes the files at its move alone
    · have hfiles : (∀ slot rec off, w ≠ .move slot rec off) → s'.files = s.files := by
        intro hno
        refine hw.frame.files ?_
        cases w <;> first | exact absurd rfl (hno _ _ _) | simp [handleBuy]
      cases w with
      | find =>
        obtain ⟨r, -, hn⟩ := hw
        rcases r with _ | slot
        · cases hn
        · simp only [handleBuy] at hn
          split_ifs at hn
          cases hn
          trivial
      | count slot =>
        rw [hfiles (by rintro _ _ _ ⟨⟩)]
        obtain ⟨r, hr, hn⟩ := hw
        simp only [handleBuy, Op.exec, Option.some.injEq] at hr
        obtain ⟨rfl, rfl⟩ := hr
        by_cases hc : c.ok = true
        · rw [if_pos hc] at hn
          rcases hids : s.files.opendir (userDir s.cwd key.bytes) with _ | ids
          -- a sandbox without a directory counts as -1 and is empty
          · have hno : userDir s.cwd key.bytes ∉ s.files.dirs := by
              intro hin
              simp [Files.opendir, hin] at hids
            have hnil : s.files.docs (userDir s.cwd key.bytes) = [] := hR.2 hno
            simp only [handleBuy, hids, Option.map_none, Next.cont.injEq] at hn
            subst hn
            show (s.files.docs _).length < maxInvenSize
            rw [hnil]
            decide
          · simp only [handleBuy, hids, Option.map_some] at hn
            split_ifs at hn with hlt
            cases hn
            show (s.files.docs _).length < maxInvenSize
            simp only [Files.opendir] at hids
            split_ifs at hids
            cases hids
            rw [List.length_map] at hlt
            omega
        · rw [if_neg hc] at hn
          cases hn
          exact (hcount rfl).resolve_left hc
      | lookup slot =>
        rw [hfiles (by rintro _ _ _ ⟨⟩)]
        obtain ⟨r, -, hn⟩ := hw
        rcases r with _ | ⟨rec, off⟩
        · cases hn
        · simp only [handleBuy] at hn
          split_ifs at hn
          cases hn
          exact hpc
      | take rec off =>
        rw [hfiles (by rintro _ _ _ ⟨⟩)]
        obtain ⟨r, -, hn⟩ := hw
        rcases r with (_ | _) | slot <;> cases hn
        exact hpc
      | stat slot rec off =>
        rw [hfiles (by rintro _ _ _ ⟨⟩)]
        obtain ⟨r, -, hn⟩ := hw
        simp only [handleBuy] at hn
        split_ifs at hn <;> cases hn
        · exact hpc
        · trivial
      | move slot rec off =>
        obtain ⟨r, -, hn⟩ := hw
        simp only [handleBuy] at hn
        split_ifs at hn <;> cases hn <;> trivial
      | _ =>
        obtain ⟨r, -, hn⟩ := hw
        cases hn <;> trivial
  | _ => trivial

end Own

/-! ### The other threads -/

theorem Lists.congr {fs' : Files} {items : List InvenItem} (h : fs'.docs d = fs.docs d)
    (hl : Lists fs d items) : Lists fs' d items := by
  refine ⟨hl.room, by rw [h]; exact hl.count, fun i doc hget => hl.all i doc ?_⟩
  rw [Files.get, ← h]
  exact hget

theorem listing_congr {fs' : Files} (h : fs'.docs d = fs.docs d) {q : SandboxList}
    (hq : Listing fs d q) : Listing fs' d q := by
  have hget : ∀ i, fs'.get d i = fs.get d i := by
    intro i
    rw [Files.get, h, Files.get]
  cases q with
  | opendir => trivial
  | read docId todo items =>
    obtain ⟨hcount, hthere, hall⟩ := hq
    refine ⟨by rw [h]; exact hcount, fun i hi => by rw [hget]; exact hthere i hi, ?_⟩
    intro i doc hdoc
    exact hall i doc ((hget i).symm.trans hdoc)
  | mark item todo marked => exact Lists.congr h hq

/-- What a command knows stays true while its sandbox stays as it is. -/
theorem stocked_congr {fs' : Files} (h : fs'.docs d = fs.docs d) (hpc : pc.Stocked fs d) :
    pc.Stocked fs' d := by
  have hv : ∀ v : Inventory, v.Stocked fs d → v.Stocked fs' d := by
    intro v hv
    cases v with
    | list q => exact listing_congr h hv
    | lookup items | send items money => exact Lists.congr h hv
  cases pc with
  | inventory v => exact hv v hpc
  | rumor k w =>
    cases w with
    | inventory v => exact hv v hpc
    | _ => trivial
  | fakeRich w =>
    cases w with
    | list rec q => exact listing_congr h hpc
    | send rec items => exact Lists.congr h hpc
    | _ => trivial
  | buy docId w =>
    cases w <;> first | trivial | (show (fs'.docs d).length < _; rw [h]; exact hpc)
  | _ => trivial

/-- A command that is not listing its sandbox knows at most that there is room. -/
theorem stocked_of_le {fs' : Files} (h : (fs'.docs d).length ≤ (fs.docs d).length)
    (hno : (Thread.session sock key pc).listing ≠ some key) (hpc : pc.Stocked fs d) :
    pc.Stocked fs' d := by
  have hv : ∀ v : Inventory, (v = .list .opendir ∨
      (Thread.session sock key (.inventory v)).listing = some key) := by
    intro v
    cases v with
    | list q => cases q <;> first | exact .inl rfl | exact .inr rfl
    | _ => exact .inr rfl
  cases pc with
  | inventory v =>
    rcases hv v with rfl | hl
    · trivial
    · exact absurd hl hno
  | rumor k w =>
    cases w with
    | inventory v =>
      rcases hv v with rfl | hl
      · trivial
      · refine absurd ?_ hno
        cases v with
        | list q => cases q <;> exact hl
        | _ => exact hl
    | _ => trivial
  | fakeRich w =>
    cases w with
    | list rec q =>
      cases q with
      | opendir => trivial
      | _ => exact absurd rfl hno
    | send rec items => exact absurd rfl hno
    | _ => trivial
  | buy docId w => cases w <;> first | trivial | exact Nat.lt_of_le_of_lt h hpc
  | _ => trivial

/-! ### Runs -/

theorem player_plain (hG : InvenScope p l) (hth : p.threads[t]? = some th)
    (hk : th.player = some key) : key.Plain :=
  hG.plain key (List.mem_filterMap.2 ⟨th, List.mem_of_getElem? hth, hk⟩)

/-- Every sandbox has room after a step. -/
theorem roomy_step (hR : Roomy p.shared) (hS : th.Stocked p.shared) (hG : InvenScope p l)
    (hth : p.threads[t]? = some th) (ha : th.action = some a) {r : a.op.Ret}
    (hr : a.op.exec p.shared c = some (s', r)) : Roomy s' := by
  intro k hk
  have hcwd : s'.cwd = p.shared.cwd := (exec_frame hr).cwd
  have hdirs : userDir s'.cwd k.bytes ∉ s'.files.dirs →
      userDir p.shared.cwd k.bytes ∉ p.shared.files.dirs := by
    rw [hcwd]
    exact fun hno hin => hno (dirs_subset hr hin)
  obtain ⟨hroom, hnone⟩ := hR k hk
  cases docs_step ha hr hk with
  | same h =>
    rw [h]
    exact ⟨hroom, fun hno => hnone (hdirs hno)⟩
  | removed i _ _ h =>
    rw [h]
    refine ⟨(List.length_filter_le _ _).trans hroom, fun hno => ?_⟩
    rw [hnone (hdirs hno)]
    rfl
  | created _ h =>
    rw [h]
    exact ⟨Nat.zero_le _, fun _ => rfl⟩
  | bought sock key i slot rec off doc hth' hkey hdir h =>
    subst hth'
    obtain rfl : key = k := userDir_inj (player_plain hG hth rfl) hk hkey
    refine ⟨?_, fun hno => absurd hdir (hdirs hno)⟩
    have hlt : (sandboxDocs p.shared key).length < maxInvenSize := hS
    rw [h, List.length_cons]
    exact (Nat.succ_le_succ (List.length_filter_le _ _)).trans hlt

/-- What a session knows of its sandbox is not touched by the others. -/
theorem stocked_frame (hR : Roomy p.shared) (hG : InvenGuard p (.run t c))
    (hth : p.threads[t]? = some th) (ha : th.action = some a) {r : a.op.Ret}
    (hr : a.op.exec p.shared c = some (s', r)) {j : ℕ} (hj : j ≠ t)
    (hu : p.threads[j]? = some u) (hS : u.Stocked p.shared) : u.Stocked s' := by
  cases u with
  | session sock key pc =>
    have hk : key.Plain := player_plain hG.scope hu rfl
    have hcwd : s'.cwd = p.shared.cwd := (exec_frame hr).cwd
    show pc.Stocked s'.files (userDir s'.cwd key.bytes)
    have hdocs : ∀ {ds}, sandboxDocs s' key = ds →
        s'.files.docs (userDir p.shared.cwd key.bytes) = ds := by
      intro ds h
      rw [← hcwd]
      exact h
    rw [hcwd]
    cases docs_step ha hr hk with
    | same h => exact stocked_congr (hdocs h) hS
    | created hdir h =>
      refine stocked_congr (hdocs ?_) hS
      rw [h]
      exact ((hR key hk).2 hdir).symm
    | removed i ho hok h =>
      have hno : (Thread.session sock key pc).listing ≠ some key := by
        intro hl
        rw [hG.settled a.op (opAt_run hth ha) _ (List.mem_of_getElem? hu) key hl hok] at ho
        cases ho
      refine stocked_of_le ?_ hno hS
      rw [hdocs h]
      exact List.length_filter_le _ _
    | bought sock' key' i slot rec off doc hth' hkey =>
      subst hth'
      obtain rfl : key' = key := userDir_inj (player_plain hG.scope hth rfl) hk hkey
      exact absurd (Pool.InjOn.of_nodup hG.scope.single j t _ _ key' hu hth rfl rfl) hj
  | _ => trivial

/-- **What a guarded step keeps.** -/
theorem stocked_step (hI : Pool.Inv Roomy Thread.Stocked p) (hG : InvenGuard p l)
    (hn : server.next p l = some p') : Pool.Inv Roomy Thread.Stocked p' := by
  cases l with
  | env e => exact Pool.inv_env hI hn hI.shared fun th hth => by cases th <;> exact hth
  | run t c =>
    refine Pool.inv_run hI hn ?_ ?_
    · intro th sh th' new hth hs
      obtain ⟨a, r, ha, hr, rfl, rfl⟩ := threadStep_eq_some.1 hs
      have hS := hI.thread t th hth
      refine ⟨roomy_step hI.shared hS hG.scope hth ha hr, ?_, fun u hu => ?_⟩
      · have ho := thread_origin ha ⟨r, hr, rfl⟩
        rcases hth' : a.next r with pc | _ | ⟨sock, key, pc'⟩ | _ | _ | _ | _ | _ | _ | _ <;>
          try trivial
        rw [hth'] at ho
        rcases ho with ⟨pc, rfl, hsteps⟩ | ⟨rfl, -⟩
        · have hmem : Thread.session sock key pc ∈ threadAt p (.run t c) := hth
          exact session_stocked (hI.shared key (player_plain hG.scope hth rfl))
            (fun h => hG.opened _ hmem key h) (fun h => hG.counted _ hmem key h) hS hsteps
        · trivial
      · obtain ⟨n, rfl⟩ | ⟨sock, -, rfl⟩ := spawned_start hu
        · cases n <;> trivial
        · trivial
    · intro th sh th' new hth hs j u hj hu hS
      obtain ⟨a, r, ha, hr, rfl, rfl⟩ := threadStep_eq_some.1 hs
      exact stocked_frame hI.shared hG hth ha hr hj hu hS

theorem inven_of_within {β : Type} {b : Action β} {l : List Store} (hb : b.Within l none) : b.op.inven = none := by
  cases hop : b.op with
  | packetSend x pkt => exact nomatch hb.2 x (by rw [hop]; rfl)
  | _ => rfl

theorem session_inven {items : List InvenItem}
    (h : (clientLoop sock key pc).op.inven = some items) (hpc : pc.Stocked fs d) :
    Lists fs d items := by
  have hno : ∀ {β : Type} {b : Action β} {l : List Store}, b.Within l none → b.op.inven = some items →
      Lists fs d items := by
    intro β b l hb hm
    rw [inven_of_within hb] at hm
    cases hm
  have hv : ∀ v : Inventory, (handleInventory sock key v).op.inven = some items →
      v.Stocked fs d → Lists fs d items := by
    intro v hm hv
    cases v with
    | list q => exact hno (sandboxList_within _ q) hm
    | lookup items => cases hm
    | send items money =>
      cases hm
      exact hv
  cases pc with
  | inventory v => exact hv v h hpc
  | rumor k w =>
    cases w with
    | inventory v => exact hv v h hpc
    | _ => cases h
  | fakeRich w =>
    cases w with
    | list rec q => exact hno (sandboxList_within _ q) h
    | send rec items =>
      cases h
      exact hpc
    | _ => cases h
  | payoff q =>
    cases q with
    | purge e rec off q => exact hno (purgeDocsIn_within (.user key) q) h
    | roundEnd q => exact hno (fireRoundEndCountdown_within _ q) h
    | _ => cases h
  | minigame code q =>
    cases q with
    | burn serial q => exact hno (burnUserByKey_within _ q) h
    | _ => cases h
  | leak q => exact hno (firePublicLeak_within q) h
  | endround q => exact hno (fireRoundEndCountdown_within _ q) h
  | bankruptcy q | buy _ q | sell _ _ q | dispose _ q | selfRaid q => cases q <;> cases h
  | _ => cases h

/-- An inventory is sent by a session. -/
theorem session_of_inven (ha : th.action = some a) {items : List InvenItem}
    (h : a.op.inven = some items) : ∃ sock key pc, th = .session sock key pc := by
  have hsock : ∃ x, a.op.sock = some x := by
    revert h
    cases a.op <;> simp [Op.inven, Op.sock]
  obtain ⟨x, hx⟩ := hsock
  have hfd := op_sock ha hx
  cases th with
  | session sock key pc => exact ⟨sock, key, pc, rfl⟩
  | login sock pc | disconnect sock pc =>
    cases ha
    cases pc <;> cases h
  | main pc =>
    cases ha
    cases pc <;> first | cases h | cases hfd
  | _ => cases hfd

/-- **The inventory limit**, in every run in which full sandboxes can be counted and sandboxes are
listed undisturbed. -/
theorem invenKept_of_guard {cwd : Dir} {files : Files} {users : UserDb} {clock : ℕ}
    (hempty : ∀ key : Key, key.Plain → files.docs (userDir cwd key.bytes) = [])
    (hp : server.Reach InvenGuard (boot cwd files users clock) p) : InvenKept p := by
  have hI : Pool.Inv Roomy Thread.Stocked p := by
    refine hp.invariant ⟨?_, fun t th hth => ?_⟩ fun p l p' _ hI hG hn => stocked_step hI hG hn
    · intro key hk
      have hnil : sandboxDocs (boot cwd files users clock).shared key = [] := hempty key hk
      exact ⟨by rw [hnil]; exact Nat.zero_le _, fun _ => hnil⟩
    · obtain rfl := List.mem_singleton.1 (List.mem_of_getElem? hth)
      trivial
  refine ⟨fun key hk => (hI.shared key hk).1, fun u hu a ha items hitems => ?_⟩
  obtain ⟨sock, key, pc, rfl⟩ := session_of_inven ha hitems
  obtain ⟨t, ht⟩ := List.getElem?_of_mem hu
  cases ha
  exact ⟨sock, key, pc, rfl, session_inven hitems (hI.thread t _ ht)⟩

/-! ### Scripts -/

/-- The event thread sleeps through a tick and lists a document. -/
def spawnTick : List Label := steps 1 1 ++ .env evtTickSec :: steps 1 14

/-- Alice is rich, and four documents are listed beside the seeds; the third tick also starts an
order. -/
def stockScript : List Label :=
  startUp ++ connect 5 ++ logIn 2 (Key.ofBytes (utf8 "alice")) ++ receive 2 .triggerRich ::
    steps 2 6 ++ steps 1 2 ++ spawnTick ++ spawnTick ++ spawnTick ++ steps 1 1 ++ spawnTick

/-- She buys seven of them. -/
def fullScript : List Label :=
  stockScript ++
    ([124, 111, 47, 70, 1, 2, 3].map fun docId => receive 2 (.buy docId) :: steps 2 10).flatten

/-- She buys the eighth one while her directory cannot be opened. -/
def overfullScript : List Label :=
  fullScript ++ receive 2 (.buy 4) :: steps 2 1 ++ .run 2 { ok := false } :: steps 2 8

theorem unstocked_fresh (key : Key) :
    freshBoot.shared.files.docs (userDir freshBoot.shared.cwd key.bytes) = [] := rfl

/-- A guarded run in which Alice is about to be sent an inventory of seven documents. -/
theorem invenKept_alice : ∃ p, server.Reach InvenGuard freshBoot p ∧
    (p.threads[2]?).any (fun u => u.action.any fun a => a.op.inven.any fun items =>
      items.length == maxInvenSize) = true ∧ InvenKept p := by
  obtain ⟨p, hp, hf⟩ := server.exists_reach_of_any InvenGuard freshBoot
    (fullScript ++ receive 2 .inven :: steps 2 16)
    (fun p => (p.threads[2]?).any fun u => u.action.any fun a => a.op.inven.any fun items =>
      items.length == maxInvenSize) (by decide +kernel)
  exact ⟨p, hp, hf, invenKept_of_guard (fun key _ => unstocked_fresh key) hp⟩

/-- Without the guard Alice has eight documents. -/
theorem not_invenKept : ∃ p, server.Reach InvenScope freshBoot p ∧ ¬ InvenKept p := by
  obtain ⟨p, hp, hf⟩ := server.exists_reach_of_any InvenScope freshBoot overfullScript
    (fun p => (sandboxDocs p.shared (Key.ofBytes (utf8 "alice"))).length == 8) (by decide +kernel)
  refine ⟨p, hp, fun h => ?_⟩
  have hroom := h.room (Key.ofBytes (utf8 "alice")) (by decide +kernel)
  rw [eq_of_beq hf] at hroom
  exact absurd hroom (by decide)

end UnderFlow
