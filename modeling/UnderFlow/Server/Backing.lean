import UnderFlow.Server.Dealing

/-!
# What stands behind a deal

* `DealGuard` : one session and one record for every key, calls of the files and of the database
  that do not fail, and nobody interfering with a sale or burned in the middle of a command.
* `Files.Numbered` : a file has the number of its document.
* `Thread.Budgeted` : a purchase is ready to pay for the document that was put up.
* `knows_server_step` : what a command knows of its record is right, though other records burn.
* `Trading`, `trading_step` : the invariant.
-/

namespace UnderFlow

variable {s s' : Shared} {c : Choice} {o : Op} {th th' : Thread} {a : Action Thread} {off t : ℕ}
  {key k : Key} {d n price : ℤ} {tags : Tags} {name : Bytes} {doc : DocFile} {l : Label}
  {docs docs' : List DocFile} {hist : List PlaceEvent} {p p' : Server}

/-! ### The guard -/

/-- **The guard**: ids are fresh and file operations work (`place`), nobody interferes with a sale
(`sale`), every key has one session and one record, the calls of the database succeed, and who is
burned by another thread waits for a command. -/
structure DealGuard (p : Server) (hist : List PlaceEvent) (l : Label) : Prop where
  place : PlaceScope p hist l
  sale : SaleGuard p l
  single : Single p
  db : DbOk p l
  updates : ∀ o ∈ opAt p l, o.rewrites = true → (choiceOf l).ok = true
  burns : ∀ o ∈ opAt p l, ∀ off ∈ o.burns, ∀ u ∈ othersAt p l, ∀ key ∈ u.player,
    keyAt p.shared.users off = some key → u.waits = true
  plain : ∀ th ∈ threadAt p l, ∀ key ∈ th.player, key.Plain

instance (p : Server) (hist : List PlaceEvent) (l : Label) : Decidable (DealGuard p hist l) :=
  decidable_of_iff (_ ∧ _ ∧ _ ∧ _ ∧ _ ∧ _ ∧ _)
    ⟨fun h => ⟨h.1, h.2.1, h.2.2.1, h.2.2.2.1, h.2.2.2.2.1, h.2.2.2.2.2.1, h.2.2.2.2.2.2⟩,
      fun h => ⟨h.place, h.sale, h.single, h.db, h.updates, h.burns, h.plain⟩⟩

/-! ### Files -/

/-- Every file has the number of its document. -/
def Files.Numbered (fs : Files) : Prop := ∀ dir d doc, fs.get dir d = some doc → doc.docId = d

theorem numbered_step (hN : s.files.Numbered) {r : o.Ret} (hr : o.exec s c = some (s', r)) :
    s'.files.Numbered := by
  intro dir d doc hget
  cases files_step hr with
  | same hfs => exact hN dir d doc (hfs ▸ hget)
  | move src dst e file _ hfile hfs =>
    rw [hfs, Files.get_put, Files.get_del] at hget
    split_ifs at hget with hdst
    · cases hget
      rw [hdst.2]
      exact hN _ e doc hfile
    · exact hN dir d doc hget
  | remove f e _ hfs =>
    rw [hfs, Files.get_unlink] at hget
    split_ifs at hget
    exact hN dir d doc hget
  | write new _ hfs =>
    rw [hfs, Files.get_put] at hget
    split_ifs at hget with hdst
    · cases hget
      exact hdst.2.symm
    · exact hN dir d doc hget
  | mkdir f _ hfs => exact hN dir d doc (get_mkdir hfs hget)

/-! ### Listings -/

/-- A purchase is ready to pay the price of the document that was put up under its number. -/
def Thread.Budgeted (docs : List DocFile) (th : Thread) : Prop :=
  ∀ d b, th.budget = some (d, b) → ∃ doc ∈ docs, doc.docId = d ∧ doc.basePrice ≤ b

theorem Thread.Budgeted.mono (h : th.Budgeted docs) (hsub : docs ⊆ docs') : th.Budgeted docs' := by
  intro d b hb
  obtain ⟨doc, hdoc, hid, hprice⟩ := h d b hb
  exact ⟨doc, hsub hdoc, hid, hprice⟩

theorem budgeted_own (hshows : ∀ slot ∈ s.market.slots, slot.active = true → slot.doc ∈ docs)
    (hB : th.Budgeted docs) (ha : th.action = some a) (hs : a.Steps s c s' th') :
    th'.Budgeted docs := by
  intro d b hb
  have ho := thread_origin ha hs
  cases th' with
  | session sock key pc' =>
    cases pc' with
    | buy d' q' =>
      obtain ⟨b', hb', he⟩ := Option.map_eq_some_iff.1 hb
      cases he
      rcases ho with ⟨pc, rfl, hs⟩ | ⟨he, -⟩
      · rcases session_origin hs with ⟨rfl, -⟩ | ⟨q, rfl, hq⟩
        · cases hb'
        · obtain ⟨-, ⟨b₀, hle, hb₀⟩ | ⟨slot, hf, rfl⟩⟩ := handleBuy_budget hq hb'
          · obtain ⟨doc, hdoc, hid, hprice⟩ := hB d b₀ (by simp [Thread.budget, hb₀])
            exact ⟨doc, hdoc, hid, hprice.trans hle⟩
          · obtain ⟨hactive, hid⟩ : slot.active = true ∧ slot.docId = d := by
              simpa [MarketSlot.lists] using List.find?_some hf
            exact ⟨slot.doc, hshows slot (List.mem_of_find?_eq_some hf) hactive, hid, le_rfl⟩
      · cases he
    | _ => cases hb
  | _ => cases hb

/-- A listing, by the thread that makes it: it has the document in hand. -/
theorem adds_of_marketAdd (hreset : th.resets = false) (hroll : th.rollback = none)
    (ha : th.action = some a) (ho : a.op = .marketAdd d tags price name) :
    th.adds = some ⟨d, tags, price, name⟩ ∧ th.carries = [d] ∧ th.player = none := by
  have hmoves : th.mayMove = true := by
    by_contra hstill
    have hplacing := unplacing_of_still (Bool.not_eq_true _ ▸ hstill) ha
    rw [ho] at hplacing
    cases hplacing
  cases th with
  | main pc =>
    cases ha
    cases pc with
    | seed q =>
      cases q <;> cases ho
      exact ⟨rfl, rfl, rfl⟩
    | _ => cases ho
  | session sock key pc =>
    cases ha
    cases pc with
    | buy d q =>
      cases q with
      | rollback slot => cases hroll
      | _ => cases ho
    | _ => cases hmoves
  | event v pc =>
    cases ha
    cases pc with
    | spawn q =>
      cases q <;> cases ho
      exact ⟨rfl, rfl, rfl⟩
    | ageMarket q => cases q <;> cases ho
    | _ => cases hmoves
  | roundEndTimer pc =>
    cases pc with
    | reset q => cases hreset
    | _ => cases hmoves
  | _ => cases hmoves

theorem Located.active_nodup (hI : Located (p, hist)) : (activeIds p.shared.market).Nodup :=
  (List.nodup_append'.1 (List.nodup_append'.1 hI.apart).1).1

theorem Located.hands_nodup (hI : Located (p, hist)) : (p.threads.flatMap Thread.carries).Nodup :=
  (List.nodup_append'.1 (List.nodup_append'.1 hI.apart).1).2.1

/-- What a thread has in hand is not on the market. -/
theorem Located.not_active (hI : Located (p, hist)) (hth : th ∈ p.threads) (hd : d ∈ th.carries) :
    d ∉ activeIds p.shared.market := fun h =>
  (List.nodup_append'.1 (List.nodup_append'.1 hI.apart).1).2.2 h
    (List.mem_flatMap.2 ⟨th, hth, hd⟩)

theorem Located.doc_eq (hI : Located (p, hist)) {doc' : DocFile} (h : doc ∈ writtenDocs hist)
    (h' : doc' ∈ writtenDocs hist) (hid : doc.docId = doc'.docId) : doc = doc' :=
  List.inj_on_of_nodup_map hI.ids h h' hid

/-- The prices of listings are in order, since ids are fresh. -/
theorem spendGuard_of_located (hI : Located (p, hist))
    (hB : ∀ u ∈ p.threads, u.Budgeted (writtenDocs hist)) (hG : PlaceScope p hist l)
    (hdb : DbOk p l) (hrange : InRange p l) : SpendGuard p l := by
  refine ⟨hdb, hrange, fun o ho x hx => ?_⟩
  cases l with
  | env e => cases ho
  | run t c =>
    obtain ⟨th, hth, hbind⟩ := Option.bind_eq_some_iff.1 (show (threadAt p (.run t c)).bind _ =
      some o from ho)
    obtain ⟨a, ha, rfl⟩ := Option.map_eq_some_iff.1 hbind
    have hmem : th ∈ p.threads := List.mem_of_getElem? hth
    obtain ⟨d, tags, price, name, hadd, rfl⟩ : ∃ d tags price name,
        a.op = .marketAdd d tags price name ∧ x = (d, price) := by
      cases hop : a.op <;> rw [hop] at hx <;> cases hx
      exact ⟨_, _, _, _, rfl, rfl⟩
    have hplacing := hI.placing th hmem
    obtain ⟨hadds, hcarries, -⟩ := adds_of_marketAdd (hG.noReset th hth)
      (rollback_of_placing hplacing) ha hadd
    have hdoc := (hplacing.adds (hG.noReset th hth) hadds).1
    refine ⟨fun slot hslot hlists => ?_, fun u hu b hb hid => ?_⟩
    · -- a document in hand is not listed
      obtain ⟨hactive, rfl⟩ : slot.active = true ∧ slot.docId = d := by
        simpa [MarketSlot.lists] using hlists
      refine absurd (List.mem_map_of_mem (List.mem_filter.2 ⟨hslot, hactive⟩))
        (hI.not_active hmem ?_)
      rw [hcarries]
      exact List.mem_singleton_self _
    · obtain ⟨doc, hold, hdid, hprice⟩ := hB u hu b.1 b.2 hb
      rw [hI.doc_eq hold hdoc (hdid.trans hid)] at hprice
      exact hprice

/-! ### Burns -/

/-- Nothing but a burn wipes a record, without a reset. -/
theorem burns_of_wipes (hreset : th.resets = false) (ha : th.action = some a)
    (h : a.op.wipes = true) : ∃ off, a.op = .userdbBurnAt off := by
  rcases hop : a.op.trading with _ | _
  · generalize a.op = o at h hop
    cases o with
    | userdbBurnAt off => exact ⟨off, rfl⟩
    | userdbResetRound m => cases hop
    | _ => cases h
  · rcases hdealing : th.dealing with _ | _
    · rw [trading_of_not_dealing hdealing hreset ha] at hop
      cases hop
    cases th with
    | session sock key pc =>
      cases ha
      cases pc with
      | buy d q | sell n ds q => cases q <;> cases h
      | _ => cases hdealing
    | _ => cases hdealing

theorem burn_step {r : o.Ret} (ho : o = .userdbBurnAt off) (hr : o.exec s c = some (s', r)) :
    s'.users = s.users ∨ s'.users = userdbBurnAt s.users off := by
  subst ho
  exact exec_burnAt hr

/-- Who burns a record knows no balance afterwards. -/
theorem quotes_after_burn (htarget : th.target = some off) (ha : th.action = some a)
    (hs : a.Steps s c s' th') : th'.quotes = none := by
  have ho := thread_origin ha hs
  cases th' with
  | session sock key pc' =>
    rcases ho with ⟨pc, rfl, hs⟩ | ⟨rfl, -⟩
    · have ho := session_origin hs
      cases pc' with
      | buy d q' | sell n ds q' | rumor k q' =>
        rcases ho with ⟨rfl, -⟩ | ⟨q, rfl, -⟩
        · rfl
        · cases htarget
      | _ => rfl
    · rfl
  | _ => rfl

theorem balanceOf_burnAt_of_ne {db : UserDb} (h : keyAt db off ≠ some key) :
    balanceOf (userdbBurnAt db off) key = balanceOf db key := by
  rw [balanceOf_congr fun i => keyAt_burnAt i, balanceOf]
  rcases hf : userdbFind db key with _ | ⟨rec, off'⟩
  · rfl
  · obtain ⟨hget, hkey, -⟩ := userdbFind_eq_some.1 hf
    have hoff : off ≠ off' := by
      rintro rfl
      exact h (keyAt_eq_some.2 ⟨rec, hget, hkey⟩)
    simp [userdbBurnAt, List.getElem?_modify, hget, hoff]

theorem quotes_of_waits (h : th.waits = true) : th.quotes = none := by
  cases th with
  | session sock key pc => cases pc <;> first | rfl | cases h
  | _ => rfl

theorem mem_othersAt {j : ℕ} {u : Thread} (hj : j ≠ t) (hu : p.threads[j]? = some u) :
    u ∈ othersAt p (.run t c) := List.mem_eraseIdx_iff_getElem?.2 ⟨j, hj, hu⟩

/-- **What a command knows** of its record is right after any step. -/
theorem knows_server_step (hA : Accounts p)
    (hK : ∀ (t : ℕ) (th : Thread), p.threads[t]? = some th → Knows p.shared th)
    (hG : DealGuard p hist l) (hn : server.next p l = some p') :
    ∀ (t : ℕ) (th : Thread), p'.threads[t]? = some th → Knows p'.shared th := by
  intro j u hu
  cases l with
  | env seconds =>
    obtain rfl := Pool.next_env.1 hn
    exact ⟨(hK j u hu).copy, (hK j u hu).quotes⟩
  | run t c =>
    obtain ⟨th, a, r, hth, ha, hr, hths⟩ := server_run hn
    have hop : opAt p (.run t c) = some a.op := opAt_run hth ha
    have hs : a.Steps p.shared c p'.shared (a.next r) := ⟨r, hr, rfl⟩
    have hold := hK t th hth
    have hth' := hA.thread t th hth
    have hnew : ∀ u ∈ a.op.spawned r, Knows p'.shared u := by
      intro u hu
      obtain ⟨hcopy, hquotes, -⟩ := spawned_plain hu
      exact ⟨by simp [hcopy], by simp [hquotes]⟩
    rw [hths] at hu
    rcases hwipes : a.op.wipes with _ | _
    · have hstep := books_thread hth' (hG.sale.range th hth) (fun hdb => hG.db th hth hdb)
        (hG.updates a.op hop) hwipes ha hs
      rcases Pool.getElem?_step hu with ⟨hj, hu⟩ | ⟨-, rfl⟩ | hu
      · exact knows_frame hth' hold ha hs hstep (hK j u hu) fun k => player_ne hG.single hth hj hu
      · exact knows_own hth' hold ha hs hstep
      · exact hnew u hu
    · obtain ⟨off, hburn⟩ := burns_of_wipes (hG.place.noReset th hth) ha hwipes
      have hburns : a.op.burns = some off := Op.burns_eq_some.2 hburn
      rcases Pool.getElem?_step hu with ⟨hj, hu⟩ | ⟨-, rfl⟩ | hu
      · refine ⟨copied_frame hth' ha hs (hK j u hu).copy, fun m hm => ?_⟩
        obtain ⟨key, hplayer, hb⟩ := (hK j u hu).quotes m hm
        refine ⟨key, hplayer, ?_⟩
        have hne : keyAt p.shared.users off ≠ some key := by
          intro hkey
          -- who is burned waits, and knows no balance
          have hwaits := hG.burns a.op hop off hburns u (mem_othersAt hj hu) key hplayer hkey
          rw [quotes_of_waits hwaits] at hm
          cases hm
        rcases burn_step hburn hr with he | he
        · rw [he, hb]
        · rw [he, balanceOf_burnAt_of_ne hne, hb]
      · refine ⟨copied_own hth' hold.copy ha hs, fun m hm => ?_⟩
        rw [quotes_after_burn (burns_target ha hburns) ha hs] at hm
        cases hm
      · exact hnew u hu

/-! ### The invariant -/

/-- **What stands behind the deals**: where documents are, what commands know of their records,
what sales have checked, and that prices, bounties and balances are right. -/
structure Trading (x : Server × List PlaceEvent) : Prop where
  located : Located x
  accounts : Accounts x.1
  knows : ∀ (t : ℕ) (th : Thread), x.1.threads[t]? = some th → Knows x.1.shared th
  sales : ∃ hist, SaleInv x.1 hist
  paying : Paying x.1
  priced : Priced x.1
  balanced : Balanced x.1
  numbered : x.1.shared.files.Numbered
  budgeted : ∀ u ∈ x.1.threads, u.Budgeted (writtenDocs x.2)

theorem spawned_budgeted {r : o.Ret} {u : Thread} (h : u ∈ o.spawned r) : u.Budgeted docs := by
  obtain ⟨n, rfl⟩ | ⟨sock, -, rfl⟩ := spawned_start h
  · cases n <;> rintro _ _ ⟨⟩
  · rintro _ _ ⟨⟩

/-- What has been written stays so. -/
theorem writtenDocs_mono (ev : List PlaceEvent) : writtenDocs hist ⊆ writtenDocs (hist ++ ev) := by
  rw [writtenDocs, writtenDocs, List.filterMap_append]
  exact List.subset_append_left _ _

/-- **A step of the server** keeps the invariant. -/
theorem trading_step (hI : Trading (p, hist)) (hG : DealGuard p hist l)
    (hn : server.next p l = some p') : Trading (p', hist ++ placeEventsAt p l) where
  located := located_step hI.located hG.place hn
  accounts := accounts_step hI.accounts hG.db hn
  knows := knows_server_step hI.accounts hI.knows hG hn
  sales := by
    obtain ⟨sales, hS⟩ := hI.sales
    exact ⟨_, saleInv_step hS hG.sale hn⟩
  paying := paying_step hI.paying hn
  priced := priced_step hI.priced hn
  balanced := balanced_step hI.accounts hI.paying hI.priced hI.balanced
    (spendGuard_of_located hI.located hI.budgeted hG.place hG.db hG.sale.range) hn
  numbered := by
    cases l with
    | env seconds =>
      obtain rfl := Pool.next_env.1 hn
      exact hI.numbered
    | run t c =>
      obtain ⟨th, a, r, -, -, hr, -⟩ := server_run hn
      exact numbered_step hI.numbered hr
  budgeted u hu := by
    cases l with
    | env seconds =>
      obtain rfl := Pool.next_env.1 hn
      exact (hI.budgeted u hu).mono (writtenDocs_mono _)
    | run t c =>
      obtain ⟨th, a, r, hth, ha, hr, hths⟩ := server_run hn
      rw [hths] at hu
      obtain ⟨j, hj⟩ := List.getElem?_of_mem hu
      rcases Pool.getElem?_step hj with ⟨-, hj⟩ | ⟨-, rfl⟩ | hnew
      · exact (hI.budgeted u (List.mem_of_getElem? hj)).mono (writtenDocs_mono _)
      · exact (budgeted_own hI.located.shows (hI.budgeted th (List.mem_of_getElem? hth)) ha
          ⟨r, hr, rfl⟩).mono (writtenDocs_mono _)
      · exact spawned_budgeted hnew

theorem trading_boot {cwd : Dir} {files : Files} {users : UserDb} (hfiles : files.Housed)
    (hnumbered : files.Numbered) (husers : ∀ rec ∈ users, rec.Sound) (clock : ℕ) :
    Trading (boot cwd files users clock, []) where
  located := located_boot hfiles users clock
  accounts := accounts_boot cwd files users clock
  knows := (books_boot cwd files users clock).knows
  sales := ⟨[], saleInv_boot hfiles⟩
  paying := paying_boot cwd files users clock
  priced := priced_boot cwd files users clock
  balanced := balanced_boot husers
  numbered := hnumbered
  budgeted u hu := by
    obtain rfl := List.mem_singleton.1 hu
    rintro _ _ ⟨⟩

end UnderFlow
