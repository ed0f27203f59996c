import UnderFlow.Server.FreezeCache
import UnderFlow.Server.Documents

/-!
# Trade in frozen documents

* `FrozenKept` : no listing is taken, and no sale committed, over a frozen tag.
* `TradeGuard` : no tag of a document is frozen between its check and the commit of its sale.
* `frozenKept_of_guard` : then `FrozenKept` holds in every state of a run.
* `not_frozenKept` : a freeze between the check and the commit lets a frozen document be sold.
-/

namespace UnderFlow

variable {s s' : Shared} {c : Choice} {th th' : Thread} {a : Action Thread} {p p' : Server}
  {t : ℕ} {key : Key} {sock : ℕ} {mask : Tags}

/-! ### Trades and commits -/

/-- What happens in the trade of documents; sales are told apart by their threads. -/
inductive TradeEvent where
  /-- A listing with the tags is taken for a buyer, under the frozen mask. -/
  | bought (tags mask : Tags)
  /-- The sale of a thread is committed, under the frozen mask. -/
  | committed (t : ℕ) (mask : Tags)
  /-- The sale of a thread consumes the document. -/
  | consumed (t : ℕ) (doc : DocFile)
  deriving DecidableEq

/-- What the next action of a thread reports of the trade; `ok` says whether the call succeeds. -/
def Thread.tradeEvents (s : Shared) (ok : Bool) (t : ℕ) : Thread → List TradeEvent
  | .session _ _ (.buy docId (.take _ _)) =>
    match (marketTake s.market docId).1 with
    | .ok slot => [.bought slot.tags s.market.frozenTags]
    | .error _ => []
  | .session _ _ (.sell npcId _ .take) =>
    if (npcTake s.npcs npcId).isSome then [.committed t s.market.frozenTags] else []
  | .session _ key (.sell _ _ (.dispose _ d _ _)) =>
    if ok then ((s.files.get (userDir s.cwd key.bytes) d).map (.consumed t)).toList else []
  | _ => []

/-- What a step adds to the history. -/
def tradeEventsAt (p : Server) : Label → List TradeEvent
  | .run t c => (p.threads[t]?).elim [] fun th => th.tradeEvents p.shared c.ok t
  | .env _ => []

/-- The server with a record of the trade. -/
def tradeServer : System (Server × List TradeEvent) Label := server.withHistory tradeEventsAt

/-- The frozen mask when the thread last committed a sale. -/
def lastCommit (t : ℕ) (hist : List TradeEvent) : Option Tags :=
  (hist.filterMap fun
    | .committed u mask => if u = t then some mask else none
    | _ => none).getLast?

/-- **No frozen tag is traded.** -/
structure FrozenKept (hist : List TradeEvent) : Prop where
  /-- No tag of a listing is frozen when it is taken for a buyer. -/
  bought : ∀ tags mask, .bought tags mask ∈ hist → tags.meets mask = false
  /-- No tag of a document was frozen when the sale that consumes it was committed. -/
  sold : ∀ before t doc after, hist = before ++ .consumed t doc :: after →
    ∃ mask, lastCommit t before = some mask ∧ doc.tags.meets mask = false

/-! ### When it holds -/

/-- The documents a sale has found free of frozen tags and has not committed yet. -/
def Sell.checked (docIds : List ℤ) : Sell → List ℤ
  | .has _ _ todo _ | .read _ _ todo _ | .frozen _ _ todo _ =>
    docIds.take (docIds.length - (todo.length + 1))
  | .take => docIds
  | _ => []

/-- The documents a sale has looked at, or is about to consume. -/
def Sell.relies (docIds : List ℤ) : Sell → List ℤ
  | .has _ _ todo _ | .read _ _ todo _ => docIds.take (docIds.length - (todo.length + 1))
  | .frozen _ _ todo _ => docIds.take (docIds.length - todo.length)
  | .take => docIds
  | .dispose _ d todo _ => d :: todo
  | _ => []

/-- The files of the documents a sale has found free of frozen tags. -/
def Thread.checked (s : Shared) : Thread → List DocFile
  | .session _ key (.sell _ docIds pc) =>
    (pc.checked docIds).filterMap (s.files.get (userDir s.cwd key.bytes))
  | _ => []

/-- Where the documents lie that a sale relies on. -/
def Thread.relies (cwd : Dir) : Thread → List (Dir × ℤ)
  | .session _ key (.sell _ docIds pc) =>
    (pc.relies docIds).map fun d => (userDir cwd key.bytes, d)
  | _ => []

/-- The operation freezes one of the tags. -/
def Op.freezes (tags : Tags) : Op → Bool
  | .freezeTags new => tags.meets new
  | _ => false

/-- No tag of a document is frozen while a sale that has checked it is not yet committed, and no
document is put where a sale relies on one. -/
structure TradeGuard (p : Server) (l : Label) : Prop where
  freeze : ∀ o ∈ opAt p l, ∀ u ∈ p.threads, ∀ doc ∈ u.checked p.shared,
    o.freezes doc.tags = false
  put : ∀ o ∈ opAt p l, ∀ x ∈ o.puts p.shared.cwd, ∀ u ∈ p.threads, x ∉ u.relies p.shared.cwd

instance (p : Server) (l : Label) : Decidable (TradeGuard p l) :=
  decidable_of_iff (_ ∧ _) ⟨fun ⟨h₁, h₂⟩ => ⟨h₁, h₂⟩, fun h => ⟨h.freeze, h.put⟩⟩

/-! ### Sales -/

/-- The files under the numbers carry no tag of the mask. -/
def FreeOf (mask : Tags) (s : Shared) (key : Key) (ids : List ℤ) : Prop :=
  ∀ d ∈ ids, ∀ doc, s.files.get (userDir s.cwd key.bytes) d = some doc → doc.tags.meets mask = false

/-- What a sale has established; `commit` is the mask of its commit. -/
def Sell.Sound (s : Shared) (key : Key) (docIds : List ℤ) (commit : Option Tags) : Sell → Prop
  | .has _ d todo _ | .read _ d todo _ =>
    ∃ pre, docIds = pre ++ d :: todo ∧ FreeOf s.market.frozenTags s key pre
  | .frozen _ df todo _ => ∃ pre d, docIds = pre ++ d :: todo ∧
      FreeOf s.market.frozenTags s key pre ∧
    ∀ doc, s.files.get (userDir s.cwd key.bytes) d = some doc → doc = df
  | .take => FreeOf s.market.frozenTags s key docIds
  | .dispose _ d todo _ => ∃ mask, commit = some mask ∧ FreeOf mask s key (d :: todo)
  | _ => True

/-- What a sale under way knows about its commit. -/
def Thread.Sound (s : Shared) (commit : Option Tags) : Thread → Prop
  | .session _ key (.sell _ docIds pc) => pc.Sound s key docIds commit
  | _ => True

theorem FreeOf.mono {ids ids' : List ℤ} (h : FreeOf mask s key ids) (hsub : ids' ⊆ ids) :
    FreeOf mask s key ids' := fun d hd => h d (hsub hd)

/-- The frozen mask grows only by what a thread freezes. -/
theorem meets_step {m m' : Market} {tags : Tags} (hstep : MarketStep m th m')
    (h : tags.meets m.frozenTags = false)
    (hfreeze : ∀ new, th.freezes = some new → tags.meets new = false) :
    tags.meets m'.frozenTags = false := by
  cases hstep with
  | same hm => rwa [hm]
  | take docId _ hm =>
    subst hm
    rcases marketTake_cases m docId with ⟨e, he⟩ | ⟨slot, slots, -, -, he⟩ <;> rw [he] <;> exact h
  | add doc _ now r hm =>
    obtain ⟨slot, new, -, hmask, -⟩ := marketAdd_eq_some hm
    rwa [hmask]
  | age now hm => rwa [hm]
  | freeze new hth hm =>
    have hmask : m'.frozenTags = m.frozenTags ||| new := by rw [hm]; rfl
    rw [hmask, meets_or, h, hfreeze new hth, Bool.or_false]
  | unfreeze old hm =>
    have hmask : m'.frozenTags = m.frozenTags &&& ~~~old := by rw [hm]; rfl
    rw [hmask]
    exact meets_and_left h
  | init hm =>
    rw [hm]
    exact meets_zero tags

theorem freezes_action {tags : Tags} (ha : th.action = some a) (h : th.freezes = some tags) :
    a.op = .freezeTags tags := by
  cases th with
  | session sock key pc =>
    cases pc with
    | leak q =>
      cases q <;> cases h
      cases ha
      rfl
    | _ => cases h
  | event v pc =>
    cases pc with
    | leak q =>
      cases q <;> cases h
      cases ha
      rfl
    | _ => cases h
  | _ => cases h

/-- Files that no step puts under the numbers stay free of a mask. -/
theorem FreeOf.step {o : Op} {r : o.Ret} {ids : List ℤ} (h : FreeOf mask s key ids)
    (hr : o.exec s c = some (s', r))
    (hput : ∀ d ∈ ids, o.puts s.cwd ≠ some (userDir s.cwd key.bytes, d)) :
    FreeOf mask s' key ids := by
  intro d hd doc hget
  rw [(exec_frame hr).cwd] at hget
  rcases get_step hr hget with hold | hnew
  · exact h d hd doc hold
  · exact absurd hnew (hput d hd)

/-- What a checked document is free of, it stays free of. -/
theorem FreeOf.frozen_step {ids : List ℤ} (h : FreeOf s.market.frozenTags s key ids)
    (ha : th.action = some a) {r : a.op.Ret} (hr : a.op.exec s c = some (s', r))
    (hput : ∀ d ∈ ids, a.op.puts s.cwd ≠ some (userDir s.cwd key.bytes, d))
    (hfreeze : ∀ doc ∈ ids.filterMap (s.files.get (userDir s.cwd key.bytes)),
      a.op.freezes doc.tags = false) :
    FreeOf s'.market.frozenTags s' key ids := by
  intro d hd doc hget
  rw [(exec_frame hr).cwd] at hget
  rcases get_step hr hget with hold | hnew
  · refine meets_step (market_step ha ⟨r, hr, rfl⟩) (h d hd doc hold) fun tags htags => ?_
    have hdoc := hfreeze doc (List.mem_filterMap.2 ⟨d, hd, hold⟩)
    rwa [freezes_action ha htags] at hdoc
  · exact absurd hnew (hput d hd)

theorem take_prefix (pre todo : List ℤ) :
    (pre ++ todo).take ((pre ++ todo).length - todo.length) = pre := by
  simp

/-- **The step of another thread** does not disturb a sale. -/
theorem sound_frame {npcId : ℤ} {docIds : List ℤ} {pc : Sell} {commit : Option Tags}
    (h : pc.Sound s key docIds commit) (ha : th.action = some a) {r : a.op.Ret}
    (hr : a.op.exec s c = some (s', r))
    (hput : ∀ x ∈ a.op.puts s.cwd,
      x ∉ (Thread.session sock key (.sell npcId docIds pc)).relies s.cwd)
    (hfreeze : ∀ doc ∈ (Thread.session sock key (.sell npcId docIds pc)).checked s,
      a.op.freezes doc.tags = false) :
    pc.Sound s' key docIds commit := by
  have hput' : ∀ ids, ids ⊆ pc.relies docIds →
      ∀ d ∈ ids, a.op.puts s.cwd ≠ some (userDir s.cwd key.bytes, d) := by
    intro ids hids d hd hp
    exact hput _ hp (List.mem_map_of_mem (hids hd))
  cases pc with
  | has npc d todo tagUnion | read npc d todo tagUnion =>
    obtain ⟨pre, rfl, hfree⟩ := h
    have hpre : (pre ++ d :: todo).take ((pre ++ d :: todo).length - (todo.length + 1)) = pre :=
      take_prefix pre (d :: todo)
    refine ⟨pre, rfl, hfree.frozen_step ha hr (hput' pre ?_) ?_⟩
    · simp only [Sell.relies, hpre]
      exact List.Subset.refl pre
    · simpa only [Thread.checked, Sell.checked, hpre] using hfreeze
  | frozen npc df todo tagUnion =>
    obtain ⟨pre, d, rfl, hfree, hdf⟩ := h
    have hpre : (pre ++ d :: todo).take ((pre ++ d :: todo).length - (todo.length + 1)) = pre :=
      take_prefix pre (d :: todo)
    have hpre' : (pre ++ d :: todo).take ((pre ++ d :: todo).length - todo.length) =
      pre ++ [d] := by
      simpa using take_prefix (pre ++ [d]) todo
    have hrel : (Sell.frozen npc df todo tagUnion).relies (pre ++ d :: todo) = pre ++ [d] := hpre'
    refine ⟨pre, d, rfl, hfree.frozen_step ha hr (hput' pre ?_) ?_, ?_⟩
    · rw [hrel]
      exact List.subset_append_left pre [d]
    · simpa only [Thread.checked, Sell.checked, hpre] using hfreeze
    · intro doc hget
      rw [(exec_frame hr).cwd] at hget
      rcases get_step hr hget with hold | hnew
      · exact hdf doc hold
      · refine absurd hnew (hput' [d] ?_ d List.mem_cons_self)
        rw [hrel]
        exact List.subset_append_right pre [d]
  | take => exact FreeOf.frozen_step h ha hr (hput' docIds (List.Subset.refl _)) hfreeze
  | dispose npc d todo sold =>
    obtain ⟨mask, hcommit, hfree⟩ := h
    exact ⟨mask, hcommit, hfree.step hr (hput' _ (List.Subset.refl _))⟩
  | _ => trivial

/-! ### The steps of a sale -/

theorem sound_check (pre : List ℤ) {todo docIds : List ℤ} {npc : NPCSlot}
    {tagUnion : Tags} {pc : Sell}
    {commit : Option Tags} (hids : docIds = pre ++ todo)
    (hfree : FreeOf s.market.frozenTags s key pre)
    (h : Sell.check npc tagUnion todo = .cont pc) : pc.Sound s key docIds commit := by
  cases todo with
  | nil =>
    simp only [Sell.check] at h
    split_ifs at h
    cases h
    rw [List.append_nil] at hids
    exact hids ▸ hfree
  | cons d todo =>
    cases h
    exact ⟨pre, hids, hfree⟩

theorem sound_disposeNext {todo docIds : List ℤ} {npc : NPCSlot} {sold : List DocFile}
    {commit : Option Tags} (hcommit : commit = some mask) (hfree : FreeOf mask s key todo) :
    (Sell.disposeNext npc sold todo).Sound s key docIds commit := by
  cases todo with
  | nil => trivial
  | cons d todo => exact ⟨mask, hcommit, hfree⟩

/-- **The step of a sale** itself; `commit'` is the mask of its last commit after the step. -/
theorem sound_own {npcId : ℤ} {docIds : List ℤ} {pc pc' : Sell} {commit commit' : Option Tags}
    (hS : pc.Sound s key docIds commit)
    (h : (handleSell sock key npcId docIds pc).Steps s c s' (.cont pc'))
    (htake : pc = .take → commit' = some s.market.frozenTags)
    (hkeep : pc ≠ .take → commit' = commit) : pc'.Sound s' key docIds commit' := by
  cases pc with
  | findNpc =>
    obtain ⟨r, hr, hn⟩ := h
    cases hr
    simp only [handleSell] at hn
    split at hn
    · cases hn
    · exact sound_check [] rfl (fun d hd => by cases hd) hn.symm
  | has npc d todo tagUnion =>
    obtain ⟨r, hr, hn⟩ := h
    cases hr
    simp only [handleSell] at hn
    split_ifs at hn
    cases hn
    exact hS
  | read npc d todo tagUnion =>
    obtain ⟨r, hr, hn⟩ := h
    obtain ⟨pre, hids, hfree⟩ := hS
    cases hr
    simp only [handleSell] at hn
    split at hn
    · cases hn
    · rename_i df hdf
      cases hn
      refine ⟨pre, d, hids, hfree, fun doc hget => ?_⟩
      simp only [Folder.dir] at hdf
      split_ifs at hdf
      exact Option.some.inj (hget.symm.trans hdf)
  | frozen npc df todo tagUnion =>
    obtain ⟨r, hr, hn⟩ := h
    obtain ⟨pre, d, hids, hfree, hdf⟩ := hS
    cases hr
    simp only [handleSell] at hn
    split_ifs at hn with hfrozen
    refine sound_check (pre ++ [d]) (by simpa using hids) ?_ hn.symm
    intro i hi doc hget
    rcases List.mem_append.1 hi with hi | hi
    · exact hfree i hi doc hget
    · rw [List.mem_singleton.1 hi] at hget
      rw [hdf doc hget]
      simpa [isTagFrozen] using hfrozen
  | take =>
    obtain ⟨r, hr, hn⟩ := h
    have hframe := exec_frame hr
    simp only [handleSell] at hr hn
    split at hn
    · cases hn
    · cases hn
      -- the mask of the commit is the mask at this point
      refine sound_disposeNext (htake rfl) fun d hd doc hget => ?_
      rw [hframe.cwd, hframe.files (by simp [handleSell])] at hget
      exact hS d hd doc hget
  | dispose npc d todo sold =>
    obtain ⟨r, hr, hn⟩ := h
    obtain ⟨mask, hcommit, hfree⟩ := hS
    cases hn
    refine sound_disposeNext ((hkeep (by rintro ⟨⟩)).trans hcommit) ?_
    exact (hfree.mono (List.subset_cons_self d todo)).step hr fun _ _ => (by rintro ⟨⟩)
  | lookup npc sold =>
    obtain ⟨r, -, hn⟩ := h
    rcases r with rec | q <;> cases hn <;> trivial
  | credit npc sold rec off | creditIndeterminate npc sold rec | reply npc sold rec old =>
    obtain ⟨r, -, hn⟩ := h
    cases hn
    trivial
  | announce =>
    obtain ⟨r, -, hn⟩ := h
    cases hn

/-- A sale that goes on after its commit has got its order. -/
theorem take_cont {npcId : ℤ} {docIds : List ℤ} {pc : Sell}
    (h : (handleSell sock key npcId docIds .take).Steps s c s' (.cont pc)) :
    (npcTake s.npcs npcId).isSome = true := by
  obtain ⟨r, hr, hn⟩ := h
  simp only [handleSell, Op.exec] at hr hn
  cases hnpc : npcTake s.npcs npcId with
  | none =>
    rw [hnpc] at hr
    cases hr
    cases hn
  | some x => rfl

/-! ### Runs -/

/-- The invariant of guarded runs. -/
structure TradeInv (p : Server) (hist : List TradeEvent) : Prop where
  coherent : Coherent p.shared.market
  kept : FrozenKept hist
  sound : ∀ (t : ℕ) (u : Thread), p.threads[t]? = some u → u.Sound p.shared (lastCommit t hist)

theorem lastCommit_append (t : ℕ) (hist ev : List TradeEvent) :
    lastCommit t (hist ++ ev) = (lastCommit t ev).or (lastCommit t hist) := by
  rw [lastCommit, List.filterMap_append, List.getLast?_append]
  rfl

theorem frozenKept_nil : FrozenKept [] where
  bought := nofun
  sold before t doc after h := by simp at h

theorem FrozenKept.append_one {hist : List TradeEvent} (h : FrozenKept hist) {e : TradeEvent}
    (hb : ∀ tags mask, e = .bought tags mask → tags.meets mask = false)
    (hs : ∀ t doc, e = .consumed t doc →
      ∃ mask, lastCommit t hist = some mask ∧ doc.tags.meets mask = false) :
    FrozenKept (hist ++ [e]) where
  bought tags mask hmem := by
    rcases List.mem_append.1 hmem with hold | hnew
    · exact h.bought tags mask hold
    · exact hb tags mask (List.mem_singleton.1 hnew).symm
  sold before t doc after heq := by
    rcases List.eq_nil_or_concat after with rfl | ⟨after', e', rfl⟩
    · obtain ⟨rfl, hlast⟩ := List.append_inj' heq rfl
      exact hs t doc (List.cons.inj hlast).1
    · have hsplit : hist ++ [e] = (before ++ .consumed t doc :: after') ++ [e'] := by
        rw [heq, List.append_assoc, List.cons_append, List.concat_eq_append]
      exact h.sold before t doc after' (List.append_inj' hsplit rfl).1

/-- The commit of a sale is the only step of a thread that changes its last commit. -/
theorem lastCommit_tradeEvents {ok : Bool} {j : ℕ} (hj : j ≠ t ∨
    ∀ sock key npcId docIds, th ≠ .session sock key (.sell npcId docIds .take)) :
    lastCommit j (th.tradeEvents s ok t) = none := by
  cases th with
  | session sock key pc =>
    cases pc with
    | buy d q =>
      cases q <;> try rfl
      simp only [Thread.tradeEvents]
      split <;> rfl
    | sell n ds q =>
      cases q <;> try rfl
      · have hne : ¬ t = j := by
          rcases hj with hj | hno
          · exact Ne.symm hj
          · exact absurd rfl (hno sock key n ds)
        simp only [Thread.tradeEvents]
        split_ifs
        · simp [lastCommit, hne]
        · rfl
      · rename_i npc d todo sold
        simp only [Thread.tradeEvents]
        split_ifs
        · cases s.files.get (userDir s.cwd key.bytes) d <;> rfl
        · rfl
    | _ => rfl
  | _ => rfl

/-- **What a step reports** keeps the promise. -/
theorem kept_step {hist : List TradeEvent} (hI : TradeInv p hist) (hth : p.threads[t]? = some th)
    (ok : Bool) : FrozenKept (hist ++ th.tradeEvents p.shared ok t) := by
  have hnil : FrozenKept (hist ++ []) := by
    rw [List.append_nil]
    exact hI.kept
  have hsound := hI.sound t th hth
  cases th with
  | session sock key pc =>
    cases pc with
    | buy d q =>
      cases q <;> try exact hnil
      simp only [Thread.tradeEvents]
      split
      · rename_i slot hslot
        refine hI.kept.append_one (fun tags mask he => ?_) nofun
        cases he
        exact meets_of_take hI.coherent (Prod.ext hslot rfl)
      · exact hnil
    | sell n ds q =>
      cases q <;> try exact hnil
      · simp only [Thread.tradeEvents]
        split_ifs
        · exact hI.kept.append_one nofun nofun
        · exact hnil
      · rename_i npc d todo sold
        simp only [Thread.tradeEvents]
        split_ifs
        · cases hget : p.shared.files.get (userDir p.shared.cwd key.bytes) d with
          | none => exact hnil
          | some doc =>
            refine hI.kept.append_one nofun fun u doc' he => ?_
            cases he
            obtain ⟨mask, hcommit, hfree⟩ := hsound
            exact ⟨mask, hcommit, hfree d List.mem_cons_self doc hget⟩
        · exact hnil
    | _ => exact hnil
  | _ => exact hnil

theorem tradeInv_step {hist : List TradeEvent} {l : Label} (hI : TradeInv p hist)
    (hG : TradeGuard p l) (h : server.next p l = some p') :
    TradeInv p' (hist ++ tradeEventsAt p l) := by
  cases l with
  | env e =>
    obtain rfl := Pool.next_env.1 h
    rw [tradeEventsAt, List.append_nil]
    refine ⟨hI.coherent, hI.kept, fun j u hu => ?_⟩
    have hold := hI.sound j u hu
    cases u with
    | session sock key pc =>
      cases pc with
      | sell n ds q => cases q <;> exact hold
      | _ => trivial
    | _ => trivial
  | run t c =>
    obtain ⟨th, a, r, hth, ha, hr, hthreads⟩ := server_run h
    have hop : opAt p (.run t c) = some a.op := opAt_run hth ha
    have hev : tradeEventsAt p (.run t c) = th.tradeEvents p.shared c.ok t := by
      simp [tradeEventsAt, hth]
    rw [hev]
    refine ⟨coherent_step hI.coherent (market_step ha ⟨r, hr, rfl⟩), kept_step hI hth c.ok,
      fun j u hu => ?_⟩
    rw [hthreads] at hu
    rcases Pool.getElem?_step hu with ⟨hj, hold⟩ | ⟨rfl, rfl⟩ | hnew
    · rw [lastCommit_append, lastCommit_tradeEvents (.inl hj), Option.none_or]
      have hsound := hI.sound j u hold
      have hmem := List.mem_of_getElem? hold
      cases u with
      | session sock key pc =>
        cases pc with
        | sell n ds q =>
          exact sound_frame hsound ha hr (fun x hx => hG.put a.op hop x hx _ hmem)
            (hG.freeze a.op hop _ hmem)
        | _ => trivial
      | _ => trivial
    · have ho := thread_origin ha ⟨r, hr, rfl⟩
      cases hnext : a.next r with
      | session sock key pc' =>
        rw [hnext] at ho
        obtain ⟨pc, hpc, hs⟩ | ⟨rfl, -⟩ := ho
        · cases pc' with
          | sell n ds q' =>
            rcases session_origin hs with ⟨rfl, -⟩ | ⟨q, rfl, hq⟩
            · trivial
            · subst hpc
              refine sound_own (hI.sound j _ hth) hq ?_ ?_
              · rintro rfl
                rw [lastCommit_append]
                simp [Thread.tradeEvents, take_cont hq, lastCommit]
              · intro hne
                rw [lastCommit_append, lastCommit_tradeEvents, Option.none_or]
                refine .inr fun sock' key' n' ds' he => hne ?_
                cases he
                rfl
          | _ => trivial
        · trivial
      | _ => trivial
    · obtain ⟨n, rfl⟩ | ⟨sock, -, rfl⟩ := spawned_start hnew
      · cases n <;> trivial
      · trivial

theorem tradeInv_boot (cwd : Dir) (files : Files) (users : UserDb) (clock : ℕ) :
    TradeInv (boot cwd files users clock) [] where
  coherent := nofun
  kept := frozenKept_nil
  sound t u h := by
    obtain rfl := List.mem_singleton.1 (List.mem_of_getElem? h)
    trivial

/-! ### Scripts -/

/-- Bob's leak has picked the military tag; Alice has bought a document with that tag and her sale
of it has passed the checks. -/
def checkedScript : List Label :=
  startUp ++ connect 5 ++ connect 6 ++ logIn 2 (Key.ofBytes (utf8 "alice")) ++
    logIn 3 (Key.ofBytes (utf8 "bob")) ++ receive 3 .triggerLeak :: steps 3 2 ++
    .run 3 { rand := [4] } :: receive 2 (.buy 111) :: steps 2 10 ++
    receive 2 (.sell 356 1 (Vector.replicate _ 111)) :: steps 2 4

/-- The tag is frozen after the sale. -/
def frozenAfterScript : List Label := checkedScript ++ steps 2 2 ++ steps 3 1

/-- The tag is frozen before the sale is committed. -/
def frozenBeforeScript : List Label := checkedScript ++ steps 3 1 ++ steps 2 2

/-- The trade of a script: the purchase, the commit under the given mask, and the consumed file. -/
def tradeOf (mask : Tags) : List TradeEvent :=
  [.bought (tagGovernment ||| tagMilitary) 0, .committed 2 mask, .consumed 2 ⟨111,
    tagGovernment ||| tagMilitary, 800, cstr maxNameLen (utf8 "연방정부 전술 드론 설계도")⟩]

/-- **Frozen documents are not traded** in guarded runs. -/
theorem frozenKept_of_guard {cwd : Dir} {files : Files} {users : UserDb} {clock : ℕ}
    {q : Server × List TradeEvent}
    (hq : tradeServer.Reach (fun q l => TradeGuard q.1 l) (boot cwd files users clock, []) q) :
    FrozenKept q.2 :=
  (hq.invariant (I := fun q => TradeInv q.1 q.2) (tradeInv_boot cwd files users clock)
    fun q l q' _ hI hG hn => by
      obtain ⟨hn, hhist⟩ := System.withHistory_next.1 hn
      rw [hhist]
      exact tradeInv_step hI hG hn).kept

/-- A guarded run with a purchase, a sale and a leak. -/
theorem frozenKept_alice : ∃ q,
    tradeServer.Reach (fun q l => TradeGuard q.1 l) (freshBoot, []) q ∧ q.2 = tradeOf 0 ∧
    FrozenKept q.2 := by
  obtain ⟨q, hq, hf⟩ := tradeServer.exists_reach_of_any (fun q l => TradeGuard q.1 l)
    (freshBoot, []) frozenAfterScript (fun q => q.2 == tradeOf 0) (by decide +kernel)
  exact ⟨q, hq, eq_of_beq hf, frozenKept_of_guard hq⟩

/-- Without the guard Alice sells a document over a frozen tag. -/
theorem not_frozenKept : ∃ q, tradeServer.Reach System.anyStep (freshBoot, []) q ∧
    ¬ FrozenKept q.2 := by
  obtain ⟨q, hq, hf⟩ := tradeServer.exists_reach_of_any System.anyStep (freshBoot, [])
    frozenBeforeScript (fun q => q.2 == tradeOf tagMilitary) (by decide +kernel)
  refine ⟨q, hq, fun h => ?_⟩
  rw [eq_of_beq hf] at h
  obtain ⟨mask, hcommit, hmeets⟩ := h.sold [.bought (tagGovernment ||| tagMilitary) 0,
    .committed 2 tagMilitary] 2 _ [] rfl
  obtain rfl : tagMilitary = mask := Option.some.inj hcommit
  revert hmeets
  decide

end UnderFlow
