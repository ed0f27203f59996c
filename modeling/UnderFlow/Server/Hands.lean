import UnderFlow.Server.Backing

/-!
# What is in the hands of the threads

* `Turn` : a step of a thread in a guarded run.
* `Turn.taken_congr`, `Turn.sold_congr` : what is about to come and to go after a step.
* `Located.master_of_taken` : a document that is about to come is in the master directory alone.
* `Turn.owns` : **what everybody owns after a step** is what the deal of the step makes of it.
-/

namespace UnderFlow

variable {s s' : Shared} {c : Choice} {th th' u : Thread} {a : Action Thread} {r : a.op.Ret}
  {j t : ℕ} {key k : Key} {d : ℤ} {doc : DocFile} {b : Option ServerDeal} {x : Key × ℤ}
  {hist : List PlaceEvent} {p p' : Server}

/-- **A step of a thread** in a guarded run. -/
structure Turn (p : Server) (hist : List PlaceEvent) (t : ℕ) (c : Choice) (th : Thread)
    (a : Action Thread) (r : a.op.Ret) (p' : Server) : Prop where
  before : Trading (p, hist)
  after : Trading (p', hist ++ placeEventsAt p (.run t c))
  guard : DealGuard p hist (.run t c)
  single : Single p'
  thread : p.threads[t]? = some th
  action : th.action = some a
  exec : a.op.exec p.shared c = some (p'.shared, r)
  threads : p'.threads = p.threads.set t (a.next r) ++ a.op.spawned r

/-! ### Hands -/

/-- Who is about to get a document has it in transit. -/
theorem carries_of_taking (h : th.taking = some (k, d)) : th.player = some k ∧ d ∈ th.carries := by
  cases th with
  | session sock key pc =>
    cases pc with
    | buy e q => cases q <;> cases h <;> exact ⟨rfl, List.mem_singleton_self _⟩
    | _ => cases h
  | _ => cases h

/-- The sale of a document that is about to go relies on its file. -/
theorem relies_of_giving (h : (k, d) ∈ th.giving) (cwd : Dir) :
    th.player = some k ∧ (userDir cwd k.bytes, d) ∈ th.relies cwd := by
  cases th with
  | session sock key pc =>
    cases pc with
    | sell n ds q =>
      cases q with
      | dispose npc e todo sold =>
        obtain ⟨e', he', heq⟩ := List.mem_map.1 h
        cases heq
        exact ⟨rfl, List.mem_map_of_mem he'⟩
      | _ => cases h
    | _ => cases h
  | _ => cases h

theorem player_of_float (h : th.float k ≠ 0) : th.player = some k := by
  cases th with
  | session sock key pc =>
    simp only [Thread.float] at h
    split_ifs at h with hkey
    · rw [← hkey]
      rfl
    · exact absurd rfl h
  | _ => exact absurd rfl h

theorem idle_of_spawned {o : Op} {r : o.Ret} (h : u ∈ o.spawned r) : Idle u := by
  obtain ⟨n, rfl⟩ | ⟨sock, -, rfl⟩ := spawned_start h
  · cases n <;> exact ⟨rfl, rfl, fun k => rfl⟩
  · exact ⟨rfl, rfl, fun k => rfl⟩

/-- A document that is about to come is in the master directory, and nowhere else. -/
theorem Located.master_of_taken (hI : Located (p, hist)) (h : (k, d) ∈ p.taken) :
    ∃ doc ∈ writtenDocs hist, doc.docId = d ∧
      p.shared.files.OnlyIn (masterDir p.shared.cwd) doc := by
  obtain ⟨u, hu, htaking⟩ := h
  have htrading : d ∈ p.trading :=
    List.mem_append_right _ (List.mem_flatMap.2 ⟨u, hu, (carries_of_taking htaking).2⟩)
  obtain ⟨doc, hdoc, rfl⟩ := List.mem_map.1 (hI.known (List.mem_append_left _ htrading))
  exact ⟨doc, hdoc, rfl, (hI.stores doc hdoc).kept htrading⟩

namespace Turn

variable (T : Turn p hist t c th a r p')

include T

theorem cwd_eq : p'.shared.cwd = p.shared.cwd := (exec_frame T.exec).cwd

theorem op_at : opAt p (.run t c) = some a.op := opAt_run T.thread T.action

theorem mem : th ∈ p.threads := List.mem_of_getElem? T.thread

theorem mem_next : a.next r ∈ p'.threads := by
  rw [T.threads]
  exact List.mem_of_getElem? (Pool.getElem?_step_self T.thread)

theorem steps : a.Steps p.shared c p'.shared (a.next r) := ⟨r, T.exec, rfl⟩

theorem not_resets : th.resets = false := T.guard.place.noReset th T.thread

theorem plain (h : th.player = some key) : key.Plain := T.guard.plain th T.thread key h

/-- What the step does beside its deal. -/
theorem step : DealStep p.shared th (th.deal p.shared c a.op) p'.shared (a.next r) :=
  deal_step T.not_resets T.before.located.housed (T.before.accounts.thread t th T.thread)
    (rollback_of_placing (T.before.located.placing th T.mem)) (T.guard.place.plain a.op T.op_at)
    (T.guard.updates a.op T.op_at) (T.guard.db th T.thread) (T.guard.sale.range th T.thread)
    (T.guard.place.works a.op T.op_at) T.action T.exec
    (rollback_of_placing (T.after.located.placing _ T.mem_next))

/-- No other thread is a session of the key. -/
theorem other_player (hplayer : th.player = some key) (hj : j ≠ t) (hu : p.threads[j]? = some u) :
    u.player ≠ some key := fun h =>
  player_ne T.guard.single T.thread hj hu h hplayer

/-- What is about to come, before the step and after it. -/
theorem mem_taken : x ∈ p.taken ↔
    th.taking = some x ∨ ∃ j u, j ≠ t ∧ p.threads[j]? = some u ∧ u.taking = some x :=
  Pool.exists_mem T.thread

theorem mem_taken_after : x ∈ p'.taken ↔
    (a.next r).taking = some x ∨
      ∃ j u, j ≠ t ∧ p.threads[j]? = some u ∧ u.taking = some x := by
  have hnew : ¬ ∃ u ∈ a.op.spawned r, Thread.taking u = some x := by
    rintro ⟨u, hu, h⟩
    rw [(idle_of_spawned hu).taking] at h
    cases h
  show (∃ u ∈ p'.threads, Thread.taking u = some x) ↔ _
  rw [T.threads, Pool.exists_mem_step T.thread, or_iff_right hnew]

theorem taken_congr (h : (a.next r).taking = some x ↔ th.taking = some x) :
    x ∈ p'.taken ↔ x ∈ p.taken := by
  rw [T.mem_taken, T.mem_taken_after, h]

/-- What is about to go, before the step and after it. -/
theorem mem_sold : x ∈ p.sold ↔
    x ∈ th.giving ∨ ∃ j u, j ≠ t ∧ p.threads[j]? = some u ∧ x ∈ u.giving :=
  Pool.exists_mem T.thread

theorem mem_sold_after : x ∈ p'.sold ↔
    x ∈ (a.next r).giving ∨ ∃ j u, j ≠ t ∧ p.threads[j]? = some u ∧ x ∈ u.giving := by
  have hnew : ¬ ∃ u ∈ a.op.spawned r, x ∈ Thread.giving u := by
    rintro ⟨u, hu, h⟩
    rw [(idle_of_spawned hu).giving] at h
    cases h
  show (∃ u ∈ p'.threads, x ∈ Thread.giving u) ↔ _
  rw [T.threads, Pool.exists_mem_step T.thread, or_iff_right hnew]

theorem sold_congr (h : x ∈ (a.next r).giving ↔ x ∈ th.giving) : x ∈ p'.sold ↔ x ∈ p.sold := by
  rw [T.mem_sold, T.mem_sold_after, h]

/-- What is about to come to the player of the thread is in its own hands. -/
theorem taken_own (hplayer : th.player = some key) :
    (key, d) ∈ p.taken ↔ th.taking = some (key, d) := by
  rw [T.mem_taken]
  refine or_iff_left ?_
  rintro ⟨j, u, hj, hu, h⟩
  exact T.other_player hplayer hj hu (carries_of_taking h).1

theorem taken_own_after (hplayer : th.player = some key) :
    (key, d) ∈ p'.taken ↔ (a.next r).taking = some (key, d) := by
  rw [T.mem_taken_after]
  refine or_iff_left ?_
  rintro ⟨j, u, hj, hu, h⟩
  exact T.other_player hplayer hj hu (carries_of_taking h).1

/-- What is about to go from the player of the thread is in its own hands. -/
theorem sold_own (hplayer : th.player = some key) :
    (key, d) ∈ p.sold ↔ (key, d) ∈ th.giving := by
  rw [T.mem_sold]
  refine or_iff_left ?_
  rintro ⟨j, u, hj, hu, h⟩
  exact T.other_player hplayer hj hu (relies_of_giving h []).1

theorem sold_own_after (hplayer : th.player = some key) :
    (key, d) ∈ p'.sold ↔ (key, d) ∈ (a.next r).giving := by
  rw [T.mem_sold_after]
  refine or_iff_left ?_
  rintro ⟨j, u, hj, hu, h⟩
  exact T.other_player hplayer hj hu (relies_of_giving h []).1

/-! ### Owners -/

/-- The master file of a document that is about to come stays as it is. -/
theorem master_eq (h : (k, d) ∈ p.taken) (h' : (k, d) ∈ p'.taken) :
    p'.shared.files.get (masterDir p'.shared.cwd) d =
      p.shared.files.get (masterDir p.shared.cwd) d := by
  obtain ⟨doc, hdoc, rfl, honly⟩ := T.before.located.master_of_taken h
  obtain ⟨doc', hdoc', hid, honly'⟩ := T.after.located.master_of_taken h'
  obtain rfl := T.after.located.doc_eq hdoc' (writtenDocs_mono _ hdoc) hid
  rw [honly.1, honly'.1]

/-- Who has the same in the sandbox and in hand owns the same. -/
theorem owned_congr (hget : k.Plain →
      p'.shared.files.get (userDir p'.shared.cwd k.bytes) doc.docId =
        p.shared.files.get (userDir p.shared.cwd k.bytes) doc.docId)
    (htaking : (a.next r).taking = some (k, doc.docId) ↔ th.taking = some (k, doc.docId))
    (hgiving : (k, doc.docId) ∈ (a.next r).giving ↔ (k, doc.docId) ∈ th.giving) :
    doc ∈ p'.ownedBy k ↔ doc ∈ p.ownedBy k := by
  have htaken := T.taken_congr htaking
  refine and_congr_right fun hk => or_congr ?_ ?_
  · rw [hget hk, T.sold_congr hgiving]
  · rw [htaken]
    refine and_congr_right fun hmem => ?_
    rw [T.master_eq hmem (htaken.2 hmem)]

/-- Who has the same in the sandboxes and in hand owns the same. -/
theorem owns_same (hfiles : SameSandboxes p.shared p'.shared)
    (htaking : (a.next r).taking = th.taking) (hgiving : (a.next r).giving = th.giving) :
    p'.ownedBy = p.ownedBy := by
  funext k
  ext doc
  exact T.owned_congr (fun hk => hfiles k hk doc.docId) (by rw [htaking]) (by rw [hgiving])

/-- What the player of the thread owns, before the step and after it. -/
theorem owned_own (hplayer : th.player = some key) : doc ∈ p.ownedBy key ↔
    p.shared.files.get (userDir p.shared.cwd key.bytes) doc.docId = some doc ∧
        (key, doc.docId) ∉ th.giving ∨
      th.taking = some (key, doc.docId) ∧
        p.shared.files.get (masterDir p.shared.cwd) doc.docId = some doc := by
  rw [← T.sold_own hplayer, ← T.taken_own hplayer]
  exact and_iff_right (T.plain hplayer)

theorem owned_own_after (hplayer : th.player = some key) : doc ∈ p'.ownedBy key ↔
    p'.shared.files.get (userDir p'.shared.cwd key.bytes) doc.docId = some doc ∧
        (key, doc.docId) ∉ (a.next r).giving ∨
      (a.next r).taking = some (key, doc.docId) ∧
        p'.shared.files.get (masterDir p'.shared.cwd) doc.docId = some doc := by
  rw [← T.sold_own_after hplayer, ← T.taken_own_after hplayer]
  exact and_iff_right (T.plain hplayer)

/-- A document in a sandbox is not about to come. -/
theorem not_taken (hkey : key.Plain)
    (h : p.shared.files.get (userDir p.shared.cwd key.bytes) d = some doc) :
    (k, d) ∉ p.taken := by
  intro htaken
  obtain ⟨doc', -, rfl, honly⟩ := T.before.located.master_of_taken htaken
  rw [honly.2 _ (userDir_ne_masterDir hkey)] at h
  cases h

/-- A file that is removed from a sandbox: all other documents are owned as before. -/
theorem owned_unlink (hkey : key.Plain)
    (hfiles : p'.shared.files = (p.shared.files.unlink (userDir p.shared.cwd key.bytes) d).2)
    (htaking : (a.next r).taking = th.taking)
    (hgiving : (k, doc.docId) ∈ (a.next r).giving ↔ (k, doc.docId) ∈ th.giving)
    (hne : (k, doc.docId) ≠ (key, d)) : doc ∈ p'.ownedBy k ↔ doc ∈ p.ownedBy k := by
  refine T.owned_congr (fun hk => ?_) (by rw [htaking]) hgiving
  rw [T.cwd_eq, hfiles, Files.get_unlink, if_neg]
  rintro ⟨hdir, rfl⟩
  exact hne (by rw [userDir_inj hk hkey hdir])

theorem get_unlinked (hfiles : p'.shared.files =
      (p.shared.files.unlink (userDir p.shared.cwd key.bytes) d).2) :
    p'.shared.files.get (userDir p'.shared.cwd key.bytes) d = none := by
  rw [T.cwd_eq, hfiles, Files.get_unlink, if_pos ⟨rfl, rfl⟩]

/-- **A purchase** gives its document to the buyer. -/
theorem owns_buy (hplayer : th.player = some key) (hshelf : doc ∈ p.shared.market.docs)
    (hfiles : SameSandboxes p.shared p'.shared) (hidle : Idle th)
    (htaking : (a.next r).taking = some (key, doc.docId)) (hgiving : (a.next r).giving = []) :
    p'.ownedBy = Function.update p.ownedBy key (insert doc (p.ownedBy key)) := by
  funext k
  ext e
  by_cases hk : k = key
  · subst hk
    obtain ⟨slot, hslot, hactive, hdoc⟩ := hshelf
    have hwritten : doc ∈ writtenDocs hist := hdoc ▸ T.before.located.shows slot hslot hactive
    obtain ⟨doc', hdoc', hid, honly⟩ :=
      T.after.located.master_of_taken ((T.taken_own_after hplayer).2 htaking)
    obtain rfl := T.after.located.doc_eq hdoc' (writtenDocs_mono _ hwritten) hid
    rw [Function.update_self, Set.mem_insert_iff, T.owned_own_after hplayer, T.owned_own hplayer,
      hidle.taking, hidle.giving, htaking, hgiving, hfiles k (T.plain hplayer)]
    constructor
    · rintro (hold | ⟨heq, hget⟩)
      · exact .inr (.inl hold)
      · have hsame : doc'.docId = e.docId := by simpa using heq
        rw [← hsame, honly.1] at hget
        cases hget
        exact .inl rfl
    · rintro (rfl | hold | ⟨heq, -⟩)
      · exact .inr ⟨rfl, honly.1⟩
      · exact .inl hold
      · cases heq
  · rw [Function.update_of_ne hk]
    refine T.owned_congr (fun hplain => hfiles k hplain _) ?_ (by rw [hgiving, hidle.giving])
    rw [htaking, hidle.taking]
    simp [Ne.symm hk]

/-- The document that is moved belongs to its buyer as before. -/
theorem owns_move (hplayer : th.player = some key)
    (hget : p.shared.files.get (masterDir p.shared.cwd) d = some doc)
    (hfiles : p'.shared.files = (p.shared.files.del (masterDir p.shared.cwd) d).put
      (userDir p.shared.cwd key.bytes) d doc)
    (htaking : th.taking = some (key, d)) (htaking' : (a.next r).taking = none)
    (hgiving : th.giving = []) (hgiving' : (a.next r).giving = []) : p'.ownedBy = p.ownedBy := by
  have hkey := T.plain hplayer
  have hsandbox : ∀ k : Key, k.Plain → ∀ i, (k, i) ≠ (key, d) →
      p'.shared.files.get (userDir p'.shared.cwd k.bytes) i =
        p.shared.files.get (userDir p.shared.cwd k.bytes) i := by
    intro k hk i hne
    rw [T.cwd_eq, hfiles, Files.get_put, if_neg, Files.get_del, if_neg]
    · rintro ⟨hdir, -⟩
      exact userDir_ne_masterDir hk hdir
    · rintro ⟨hdir, rfl⟩
      exact hne (by rw [userDir_inj hk hkey hdir])
  funext k
  ext e
  by_cases hk : k = key
  · subst hk
    rw [T.owned_own_after hplayer, T.owned_own hplayer, htaking, htaking', hgiving, hgiving']
    by_cases he : e.docId = d
    · obtain ⟨doc', -, hid, honly⟩ :=
        T.before.located.master_of_taken ((T.taken_own hplayer).2 htaking)
      have hnone := honly.2 _ (userDir_ne_masterDir hkey)
      rw [hid] at hnone
      rw [he, hnone, hget, T.cwd_eq, hfiles, Files.get_put, if_pos ⟨rfl, rfl⟩]
      simp
    · rw [hsandbox k hkey e.docId fun heq => he (congrArg Prod.snd heq)]
      simp [Ne.symm he]
  · refine T.owned_congr (fun hplain => ?_) ?_ (by rw [hgiving, hgiving'])
    · exact hsandbox k hplain e.docId fun heq => hk (congrArg Prod.fst heq)
    · rw [htaking, htaking']
      simp [Ne.symm hk]

/-- **A sale** takes its documents from the seller. -/
theorem owns_sell {sock : ℕ} {n : ℤ} {ds : List ℤ} {pc : Sell}
    (hth : th = .session sock key (.sell n ds pc)) (hfiles : SameSandboxes p.shared p'.shared)
    (hidle : Idle th) (htaking : (a.next r).taking = none)
    (hgiving : (a.next r).giving = ds.map fun d => (key, d)) :
    p'.ownedBy = Function.update p.ownedBy key {e ∈ p.ownedBy key | e ∉ th.selling p.shared} := by
  have hplayer : th.player = some key := by
    rw [hth]
    rfl
  funext k
  ext e
  by_cases hk : k = key
  · subst hk
    have hselling : p.shared.files.get (userDir p.shared.cwd k.bytes) e.docId = some e →
        (e ∈ th.selling p.shared ↔ e.docId ∈ ds) := by
      intro hget
      have hdef : th.selling p.shared =
          ds.filterMap (p.shared.files.get (userDir p.shared.cwd k.bytes)) := by
        rw [hth]
        rfl
      rw [hdef, List.mem_filterMap]
      constructor
      · rintro ⟨d, hd, hget'⟩
        rwa [T.before.numbered _ d e hget']
      · exact fun hd => ⟨e.docId, hd, hget⟩
    rw [Function.update_self, Set.mem_ofPred_eq, T.owned_own_after hplayer, T.owned_own hplayer,
      hidle.taking, hidle.giving, htaking, hgiving, hfiles k (T.plain hplayer)]
    constructor
    · rintro (⟨hget, hno⟩ | ⟨heq, -⟩)
      · refine ⟨.inl ⟨hget, List.not_mem_nil⟩, fun hmem => hno ?_⟩
        exact List.mem_map_of_mem ((hselling hget).1 hmem)
      · cases heq
    · rintro ⟨⟨hget, -⟩ | ⟨heq, -⟩, hno⟩
      · refine .inl ⟨hget, fun hmem => hno ((hselling hget).2 ?_)⟩
        obtain ⟨d, hd, heq⟩ := List.mem_map.1 hmem
        cases heq
        exact hd
      · cases heq
  · rw [Function.update_of_ne hk]
    refine T.owned_congr (fun hplain => hfiles k hplain _) (by rw [htaking, hidle.taking]) ?_
    rw [hgiving, hidle.giving]
    simp [Ne.symm hk]

/-- What is removed after a sale was not owned any more. -/
theorem owns_give (hplayer : th.player = some key)
    (hfiles : p'.shared.files = (p.shared.files.unlink (userDir p.shared.cwd key.bytes) d).2)
    (htaking : th.taking = none) (htaking' : (a.next r).taking = none)
    (hgiving : th.giving = (key, d) :: (a.next r).giving) : p'.ownedBy = p.ownedBy := by
  funext k
  ext e
  by_cases hne : (k, e.docId) = (key, d)
  · obtain ⟨rfl, rfl⟩ := Prod.mk.inj hne
    rw [T.owned_own_after hplayer, T.owned_own hplayer, T.get_unlinked hfiles, htaking, htaking',
      hgiving]
    simp
  · refine T.owned_unlink (T.plain hplayer) hfiles (by rw [htaking, htaking']) ?_ hne
    rw [hgiving, List.mem_cons, or_iff_right hne]

/-- **A document that is discarded** is taken from its owner. -/
theorem owns_discard (hkey : key.Plain)
    (hget : p.shared.files.get (userDir p.shared.cwd key.bytes) d = some doc)
    (hfiles : p'.shared.files = (p.shared.files.unlink (userDir p.shared.cwd key.bytes) d).2)
    (hidle : Idle th) (hidle' : Idle (a.next r)) :
    p'.ownedBy = Function.update p.ownedBy key {e ∈ p.ownedBy key | e ≠ doc} := by
  obtain rfl : doc.docId = d := T.before.numbered _ d doc hget
  have hsame : (a.next r).taking = th.taking := by rw [hidle.taking, hidle'.taking]
  have hother : ∀ k e, (k, DocFile.docId e) ≠ (key, doc.docId) →
      (e ∈ p'.ownedBy k ↔ e ∈ p.ownedBy k) := fun k e =>
    T.owned_unlink hkey hfiles hsame (by rw [hidle.giving, hidle'.giving])
  funext k
  ext e
  by_cases hk : k = key
  · subst hk
    rw [Function.update_self, Set.mem_ofPred_eq]
    by_cases he : e.docId = doc.docId
    · have hno : (k, e.docId) ∉ p.taken := he ▸ T.not_taken hkey hget
      have hno' : (k, e.docId) ∉ p'.taken := fun h => hno ((T.taken_congr (by rw [hsame])).1 h)
      have hgone := T.get_unlinked hfiles
      rw [← he] at hgone hget
      constructor
      · rintro ⟨-, ⟨hget', -⟩ | ⟨htaken, -⟩⟩
        · rw [hgone] at hget'
          cases hget'
        · exact absurd htaken hno'
      · rintro ⟨⟨-, ⟨hget', -⟩ | ⟨htaken, -⟩⟩, hne⟩
        · exact absurd (Option.some.inj (hget'.symm.trans hget)) hne
        · exact absurd htaken hno
    · rw [hother k e fun heq => he (congrArg Prod.snd heq)]
      refine (and_iff_left ?_).symm
      rintro rfl
      exact he rfl
  · rw [Function.update_of_ne hk]
    exact hother k e fun heq => hk (congrArg Prod.fst heq)

/-- **What everybody owns after a step** is what its deal, if there is one, makes of it. -/
theorem owns (h : DealStep p.shared th b p'.shared (a.next r)) :
    p'.ownedBy = b.elim p.ownedBy fun x => x.owns p.ownedBy := by
  cases h with
  | common hb _ hfiles hhands =>
    rw [T.owns_same hfiles hhands.taking hhands.giving]
    rcases b with _ | x
    · rfl
    · have hx := hb x rfl
      cases x <;> first | rfl | cases hx
  | buy sock key doc rec off hth hb hshelf _ hfiles hidle htaking hgiving _ =>
    rw [hb]
    exact T.owns_buy (by rw [hth]; rfl) hshelf hfiles hidle htaking hgiving
  | move key d doc hplayer hb _ hget hfiles htaking htaking' hgiving hgiving' _ =>
    rw [hb]
    exact T.owns_move hplayer hget hfiles htaking htaking' hgiving hgiving'
  | sell sock key n ds i npc hth _ _ hb _ hfiles hidle htaking hgiving _ =>
    rw [hb]
    exact T.owns_sell hth hfiles hidle htaking hgiving
  | give key d hplayer hb _ hfiles htaking htaking' hgiving _ =>
    rw [hb]
    exact T.owns_give hplayer hfiles htaking htaking' hgiving
  | discard key d hb hkey _ hfiles hidle hidle' =>
    rw [hb]
    rcases hget : p.shared.files.get (userDir p.shared.cwd key.bytes) d with _ | doc
    · refine T.owns_same (fun k _ e => ?_) (by rw [hidle.taking, hidle'.taking])
        (by rw [hidle.giving, hidle'.giving])
      rw [T.cwd_eq, hfiles, Files.get_unlink]
      split_ifs with hdir
      · rw [hdir.1, hdir.2, hget]
      · rfl
    · exact T.owns_discard hkey hget hfiles hidle hidle'
  | settle key rec off x _ _ _ hb _ hfiles htaking hgiving _ hidle =>
    rw [hb]
    exact T.owns_same hfiles (by rw [htaking, hidle.taking]) (by rw [hgiving, hidle.giving])
  | pay sock key target now rec off _ hb _ hfiles hidle hidle'
  | assign key rec off rec' _ _ _ _ hb _ hfiles hidle hidle' =>
    rw [hb]
    exact T.owns_same hfiles (hidle.same hidle').taking (hidle.same hidle').giving
  | join sock key rec hth hb _ hfiles hidle' =>
    rw [hb]
    exact T.owns_same hfiles (by rw [hidle'.taking, hth]; rfl) (by rw [hidle'.giving, hth]; rfl)
  | ruin off _ hb _ hfiles hidle hidle' =>
    rw [hb, T.owns_same hfiles (hidle.same hidle').taking (hidle.same hidle').giving]
    rcases keyAt p.shared.users off with _ | key <;> rfl

end Turn

end UnderFlow
