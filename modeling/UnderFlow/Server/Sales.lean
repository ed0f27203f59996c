import Mathlib.Data.List.Forall2
import UnderFlow.Data.BitMask
import UnderFlow.Server.FrozenTrade
import UnderFlow.Server.Orders
import UnderFlow.Server.Records

/-!
# Sales that are paid

What a call of `handle_sell` has done when it answers, in any run of the server: an error means
that it has done nothing, `PKT_RES_SELL_OK` that it has taken an order, removed the documents and
paid the bounty.

* `saleServer` : the server with a record of the orders put up and of what the sales do.
* `Sold` : a sale that is right.
* `SaleGuard` : nobody interferes with a sale that is under way.
* `Sell.Right` : what a sale has done so far, and what it relies on.
* `salesSound_of_guard` : every sale that is paid is right.
* `not_salesSound` : a raid burns the seller in the middle of his sale.
-/

namespace UnderFlow

/-! ### What the sales do -/

/-- What is recorded of the orders, and of the calls of `handle_sell` by the threads that make
them. -/
inductive SaleEvent where
  /-- An order is put up in a slot of the board. -/
  | posted (i : ℕ) (o : Order)
  | request (t : ℕ)
  | step (t : ℕ) (before after : Shared)
  /-- `PKT_RES_SELL_OK` is sent. -/
  | paid (t : ℕ) (key : Key) (npcId : ℤ) (docIds : List ℤ)
  | refused (t : ℕ)

/-- The slot an operation fills. -/
def Op.posted (s : Shared) : Op → List SaleEvent
  | .npcAdd n tags bounty =>
    ((s.npcs.findIdx? fun npc => !npc.active).map fun i => .posted i (n, tags, bounty)).toList
  | _ => []

/-- The answer of a call, from its operation and how it goes on. -/
def saleAnswer (t : ℕ) (key : Key) (npcId : ℤ) (docIds : List ℤ) (o : Op) (x : Next Sell) :
    List SaleEvent :=
  match o, x with
  | .packetSend _ (.sellOk _ _), _ => [.paid t key npcId docIds]
  | _, .fail _ _ => [.refused t]
  | _, _ => []

/-- The first operation of a call. -/
def Sell.begins : Sell → Bool
  | .findNpc => true
  | _ => false

/-- The record of one operation of a call. -/
def Sell.events (t : ℕ) (s : Shared) (c : Choice) (sock : ℕ) (key : Key) (npcId : ℤ)
    (docIds : List ℤ) (pc : Sell) : List SaleEvent :=
  match (handleSell sock key npcId docIds pc).op.exec s c with
  | none => []
  | some (s', r) => (if pc.begins then [.request t] else []) ++ .step t s s' ::
      saleAnswer t key npcId docIds (handleSell sock key npcId docIds pc).op
        ((handleSell sock key npcId docIds pc).next r)

/-- A sale of no documents, or of too many, is refused before it begins. -/
def Request.miscounted : Request → Bool
  | .sell _ count _ => decide (count ≤ 0 ∨ (maxInvenSize : ℤ) < count)
  | _ => false

/-- The record of one action. -/
def Thread.saleEvents (t : ℕ) (s : Shared) (c : Choice) : Thread → List SaleEvent
  | .session _ _ .recv => if c.request.any Request.miscounted then [.request t, .refused t] else []
  | .session sock key (.sell npcId docIds pc) => pc.events t s c sock key npcId docIds
  | _ => []

/-- What a step adds to the history. -/
def saleEventsAt (p : Server) (l : Label) : List SaleEvent :=
  ((opAt p l).map (Op.posted p.shared)).getD [] ++
    match l with
    | .run t c => (p.threads[t]?.map (Thread.saleEvents t p.shared c)).getD []
    | .env _ => []

/-- **The server** with a record of what the sales do. -/
def saleServer : System (Server × List SaleEvent) Label := server.withHistory saleEventsAt

/-- An operation of a call. -/
structure SaleStep where
  /-- The state before it. -/
  before : Shared
  /-- The state after it. -/
  after : Shared

/-- One more event in the record of a thread; a request begins it anew. -/
def saleStep (t : ℕ) (sts : List SaleStep) : SaleEvent → List SaleStep
  | .request u => if u = t then [] else sts
  | .step u before after => if u = t then sts ++ [⟨before, after⟩] else sts
  | _ => sts

/-- The operations of the last call of a thread. -/
def saleSteps (t : ℕ) (hist : List SaleEvent) : List SaleStep := hist.foldl (saleStep t) []

/-! ### Sound sales -/

/-- No order, document or balance is changed. -/
structure SaleStep.Quiet (st : SaleStep) : Prop where
  npcs : st.after.npcs = st.before.npcs
  files : st.after.files = st.before.files
  users : st.after.users = st.before.users

/-- The order in slot `i` is taken. -/
structure SaleStep.Takes (i : ℕ) (npc : NPCSlot) (st : SaleStep) : Prop where
  slot : st.before.npcs[i]? = some npc
  active : npc.active = true
  npcs : st.after.npcs = st.before.npcs.set i { npc with active := false }
  files : st.after.files = st.before.files
  users : st.after.users = st.before.users

/-- At most documents are removed. -/
structure SaleStep.Discards (st : SaleStep) : Prop where
  npcs : st.after.npcs = st.before.npcs
  users : st.after.users = st.before.users

/-- The document was in the sandbox of the key, and is removed from it. -/
structure SaleStep.Removes (key : Key) (d : ℤ) (doc : DocFile) (st : SaleStep) : Prop where
  held : st.before.files.get (userDir st.before.cwd key.bytes) d = some doc
  gone : st.after.files.get (userDir st.after.cwd key.bytes) d = none

/-- The balance of the key rises. -/
structure SaleStep.Credits (key : Key) (bounty : ℤ) (st : SaleStep) : Prop where
  npcs : st.after.npcs = st.before.npcs
  files : st.after.files = st.before.files
  raised : ∃ money, balanceOf st.before.users key = some money ∧
    balanceOf st.after.users key = some (money + bounty)

/-- The required tags are among the tags. -/
def Covers (tags required : Tags) : Prop := tags &&& required = required

instance (tags required : Tags) : Decidable (Covers tags required) :=
  inferInstanceAs (Decidable (_ = _))

/-- The call has checked without changing anything, and taken an order that asks for no more than
the documents have; every number has the property together with its document. -/
def TookOrder (npcId : ℤ) (docIds : List ℤ) (npc : NPCSlot) (sts : List SaleStep)
    (P : List SaleStep → ℤ → DocFile → Prop) : Prop :=
  ∃ (i : ℕ) (docs : List DocFile) (checks discards : List SaleStep) (take : SaleStep),
    sts = checks ++ take :: discards ∧ (∀ st ∈ checks, st.Quiet) ∧
    npc.npcId = npcId ∧ take.Takes i npc ∧
    Covers (unionOf (docs.map (·.tags))) npc.requiredTags ∧
    (∀ st ∈ discards, st.Discards) ∧ List.Forall₂ (P discards) docIds docs

/-- The document has been removed. -/
def Removed (key : Key) (sts : List SaleStep) (d : ℤ) (doc : DocFile) : Prop :=
  ∃ st ∈ sts, st.Removes key d doc

/-- The call has taken its order and removed its documents. -/
def Discarded (key : Key) (npcId : ℤ) (docIds : List ℤ) (npc : NPCSlot) (sts : List SaleStep) :
    Prop := TookOrder npcId docIds npc sts (Removed key)

/-- **A sale that is right**: it pays the bounty of the order it took, and no more is done. -/
def Sold (key : Key) (npcId : ℤ) (docIds : List ℤ) (sts : List SaleStep) : Prop :=
  ∃ (npc : NPCSlot) (done : List SaleStep) (lookup credit reply : SaleStep),
    sts = done ++ [lookup, credit, reply] ∧ Discarded key npcId docIds npc done ∧
    lookup.Quiet ∧ credit.Credits key npc.bounty ∧ reply.Quiet

/-- The event is a sale that takes the order in slot `i`. -/
def SaleEvent.TakesSlot (i : ℕ) : SaleEvent → Prop
  | .step _ before after => ∃ npc, SaleStep.Takes i npc ⟨before, after⟩
  | _ => False

/-- The order in slot `i` was put up there, and no sale has taken it since. -/
def PostedAnew (hist : List SaleEvent) (i : ℕ) (npc : NPCSlot) : Prop :=
  ∃ pre post, hist = pre ++ .posted i (npc.npcId, npc.requiredTags, npc.bounty) :: post ∧
    ∀ e ∈ post, ¬ e.TakesSlot i

/-- A paid sale is right, a refused one has changed nothing, and an order is taken once. -/
def SaleSound (before : List SaleEvent) : SaleEvent → Prop
  | .paid t key npcId docIds => Sold key npcId docIds (saleSteps t before)
  | .refused t => ∀ st ∈ saleSteps t before, st.Quiet
  | .step _ s s' => ∀ i npc, SaleStep.Takes i npc ⟨s, s'⟩ → PostedAnew before i npc
  | _ => True

/-- Every sale is sound. -/
def SalesSound (hist : List SaleEvent) : Prop := Along SaleSound hist

/-! ### The guard -/

/-- The tags of the documents that are in the sandbox of the key. -/
def filesTags (s : Shared) (key : Key) (docIds : List ℤ) : Tags :=
  unionOf ((docIds.filterMap (s.files.get (userDir s.cwd key.bytes))).map (·.tags))

/-- What the documents of a sale are to have, as far as it is known before the order is taken. -/
def Sell.seeks (s : Shared) (key : Key) (docIds : List ℤ) : Sell → Option Tags
  | .has npc _ _ tagUnion | .read npc _ _ tagUnion | .frozen npc _ _ tagUnion =>
    some (tagUnion ||| npc.requiredTags)
  | .take => some (filesTags s key docIds)
  | _ => none

/-- The order a sale under way is for, and the tags its documents are to have. -/
def Thread.seeks (s : Shared) : Thread → Option (ℤ × Tags)
  | .session _ key (.sell npcId docIds pc) => (pc.seeks s key docIds).map fun tags => (npcId, tags)
  | _ => none

/-- The files an operation removes or replaces. -/
def Op.touches (cwd : Dir) : Op → List (Dir × ℤ)
  | .rename src dst d => [(src.dir cwd, d), (dst.dir cwd, d)]
  | .unlink f d => [(f.dir cwd, d)]
  | .writeMaster doc => [(masterDir cwd, doc.docId)]
  | _ => []

/-- The record a sale has read and is about to write. -/
def Thread.crediting : Thread → Option (Key × ℕ)
  | .session _ key (.sell _ _ (.credit _ _ _ offset)) => some (key, offset)
  | _ => none

/-- The operation writes the record at the offset, or another one of the key. -/
def Op.rewritesRecord (key : Key) (offset : ℕ) : Op → Bool
  | .userdbUpdateAt o rec => o == offset || rec.key == key
  | .userdbBurnAt o => o == offset
  | .userdbResetRound _ | .userdbUpdateIndeterminate => true
  | _ => false

/-- The calls of a sale that has taken an order succeed, the record of the seller is there, and its
balance with the bounty is an `int32_t`. -/
def Thread.SaleOk (s : Shared) (c : Choice) : Thread → Prop
  | .session _ key (.sell _ _ pc) =>
    match pc with
    | .dispose _ _ _ _ => c.ok = true
    | .lookup _ _ => c.ok = true ∧ (userdbFind s.users key).isSome = true
    | .credit npc _ rec _ => c.ok = true ∧ InInt32 (rec.money + npc.bounty)
    | _ => True
  | _ => True

instance (s : Shared) (c : Choice) (th : Thread) : Decidable (th.SaleOk s c) := by
  unfold Thread.SaleOk
  split
  · split <;> infer_instance
  · infer_instance

/-- What an operation may not do to the sale of another thread. -/
structure Spares (s : Shared) (o : Op) (u : Thread) : Prop where
  files : ∀ x ∈ u.relies s.cwd, x ∉ o.touches s.cwd
  record : ∀ x ∈ u.crediting, o.rewritesRecord x.1 x.2 = false
  orders : ∀ n tags bounty, o = .npcAdd n tags bounty → ∀ x ∈ u.seeks s, x.1 = n → Covers x.2 tags

/-- The order an operation puts up. -/
def Op.order : Op → Option (ℤ × Tags)
  | .npcAdd n tags _ => some (n, tags)
  | _ => none

instance (s : Shared) (o : Op) (u : Thread) : Decidable (Spares s o u) :=
  decidable_of_iff ((∀ x ∈ u.relies s.cwd, x ∉ o.touches s.cwd) ∧
      (∀ x ∈ u.crediting, o.rewritesRecord x.1 x.2 = false) ∧
      ∀ y ∈ o.order, ∀ x ∈ u.seeks s, x.1 = y.1 → Covers x.2 y.2)
    ⟨fun ⟨hf, hr, ho⟩ => ⟨hf, hr, fun n tags bounty h x hx he => by
      subst h
      exact ho (n, tags) rfl x hx he⟩,
    fun h => ⟨h.files, h.record, fun y hy x hx he => by
      cases o <;> cases hy
      exact h.orders _ _ _ rfl x hx he⟩⟩

/-- The threads that a label does not run. -/
def othersAt (p : Server) : Label → List Thread
  | .run t _ => p.threads.eraseIdx t
  | .env _ => []

/-- **Nobody interferes with a sale under way**: its calls succeed, its sum is an `int32_t`, no other
thread removes or replaces the documents it has checked or rewrites its record, no order put up
under its id asks for more than its documents have, and orders of one id ask for the same tags. -/
structure SaleGuard (p : Server) (l : Label) : Prop where
  own : ∀ th ∈ threadAt p l, th.SaleOk p.shared (choiceOf l)
  others : ∀ o ∈ opAt p l, ∀ u ∈ othersAt p l, Spares p.shared o u
  ids : ∀ o ∈ opAt p l, ∀ y ∈ o.order, ∀ npc ∈ p.shared.npcs, npc.orders y.1 = true →
    npc.requiredTags = y.2

instance (p : Server) (l : Label) : Decidable (SaleGuard p l) :=
  decidable_of_iff ((∀ th ∈ threadAt p l, th.SaleOk p.shared (choiceOf l)) ∧
      (∀ o ∈ opAt p l, ∀ u ∈ othersAt p l, Spares p.shared o u) ∧
      ∀ o ∈ opAt p l, ∀ y ∈ o.order, ∀ npc ∈ p.shared.npcs, npc.orders y.1 = true →
        npc.requiredTags = y.2)
    ⟨fun ⟨h₁, h₂, h₃⟩ => ⟨h₁, h₂, h₃⟩, fun h => ⟨h.own, h.others, h.ids⟩⟩

theorem SaleGuard.range {p : Server} {l : Label} (hG : SaleGuard p l) : InRange p l := by
  intro th hth
  have hown := hG.own th hth
  cases th with
  | session sock key pc =>
    cases pc with
    | sell n ds q =>
      cases q with
      | credit npc sold rec off => exact hown.2
      | _ => trivial
    | _ => trivial
  | _ => trivial

variable {s s' : Shared} {c : Choice} {o : Op} {th th' u : Thread} {a : Action Thread} {sock : ℕ}
  {key : Key} {t i : ℕ} {n d : ℤ} {ds todo : List ℤ} {npc : NPCSlot} {tags : Tags} {q : Sell}
  {sts : List SaleStep} {hist ev : List SaleEvent} {npcs npcs' : List NPCSlot}

/-! ### What an operation does to the stores -/

/-- What an operation can do to the board. -/
inductive BoardOp (s : Shared) (o : Op) (npcs' : List NPCSlot) : Prop
  | same (h : npcs' = s.npcs)
  | take (n : ℤ) (npc : NPCSlot) (ho : o = .npcTake n) (h : npcTake s.npcs n = some (npc, npcs'))
  | add (n : ℤ) (tags : Tags) (bounty : ℤ) (ho : o = .npcAdd n tags bounty)
      (h : npcAdd s.npcs s.clock n tags bounty = some npcs')
  | drop (p : NPCSlot → Bool)
      (h : npcs' = s.npcs.map fun npc => if p npc then { npc with active := false } else npc)
  | init (h : npcs' = npcInit)

theorem board_op {r : o.Ret} (h : o.exec s c = some (s', r)) : BoardOp s o s'.npcs := by
  by_cases ho : o.store = some .npcs
  · cases o <;> simp only [Op.store, Option.some.injEq, reduceCtorEq] at ho
    case npcTake n =>
      rcases exec_npcTake h with ⟨rfl, -, -⟩ | ⟨npc, npcs, rfl, -, ht⟩
      · exact .same rfl
      · exact .take n npc rfl ht
    case npcAdd n tags bounty =>
      simp only [Op.exec] at h
      split at h <;> cases h
      · exact .same rfl
      · exact .add n tags bounty rfl ‹_›
    case npcDespawnAged base step =>
      cases h
      exact .drop (fun npc => npc.expired s.clock base step) rfl
    case npcInit =>
      cases h
      exact .init rfl
  · exact .same ((exec_frame h).npcs ho)

/-- An order that is taken, by its slot. -/
theorem npcTake_slot (h : npcTake npcs n = some (npc, npcs')) : ∃ i, npcs[i]? = some npc ∧
    npc.orders n = true ∧ npcs' = npcs.set i { npc with active := false } := by
  obtain ⟨i, hi, rfl, horders, -⟩ := updateFirst_eq_set h
  exact ⟨i, hi, horders, rfl⟩

/-- An order that is put up, by its slot. -/
theorem npcAdd_slot {now : ℕ} {bounty : ℤ} (h : npcAdd npcs now n tags bounty = some npcs') :
    ∃ i, npcs.findIdx? (fun npc => !npc.active) = some i ∧ i < npcs.length ∧
      npcs' = npcs.set i
        { npcId := n
          requiredTags := tags
          bounty := bounty
          active := true
          spawnTime := now } := by
  obtain ⟨⟨old, new⟩, hu, rfl⟩ := Option.map_eq_some_iff.1 h
  obtain ⟨i, hi, rfl, hfree, hfirst⟩ := updateFirst_eq_set hu
  obtain ⟨hlt, hold⟩ := List.getElem?_eq_some_iff.1 hi
  refine ⟨i, List.findIdx?_eq_some_iff_getElem.2 ⟨hlt, by rw [hold]; exact hfree, fun j hj => ?_⟩,
    hlt, rfl⟩
  have hlt' : j < npcs.length := hj.trans hlt
  have hno := hfirst j npcs[j] hj (List.getElem?_eq_getElem hlt')
  rw [hno]
  exact Bool.false_ne_true

/-- A file that an operation does not touch is as it was. -/
theorem get_untouched {dir : Dir} {r : o.Ret} (hs : s.files.Housed)
    (hx : (dir, d) ∉ o.touches s.cwd) (h : o.exec s c = some (s', r)) :
    s'.files.get dir d = s.files.get dir d := by
  cases files_step h with
  | same hfs => rw [hfs]
  | move src dst i doc ho hget hfs =>
    subst ho
    simp only [Op.touches, List.mem_cons, Prod.mk.injEq, List.not_mem_nil, or_false, not_or] at hx
    rw [hfs, Files.get_put, Files.get_del, if_neg hx.2, if_neg hx.1]
  | remove f i ho hfs =>
    subst ho
    simp only [Op.touches, List.mem_singleton, Prod.mk.injEq] at hx
    rw [hfs, Files.get_unlink, if_neg hx]
  | write doc ho hfs =>
    subst ho
    simp only [Op.touches, List.mem_singleton, Prod.mk.injEq] at hx
    rw [hfs, Files.get_put, if_neg hx]
  | mkdir f ho hfs =>
    simp only [Files.mkdir] at hfs
    split_ifs at hfs with hdir hparent
    · rw [← Option.some.inj hfs]
    · rw [← Option.some.inj hfs]
      by_cases hd : dir = f.dir s.cwd
      · subst hd
        have hnone := docs_eq_nil.1 (hs _ hdir) d
        rw [hnone]
        simp [Files.get]
      · simp [Files.get, Function.update_of_ne hd]

/-- A record that an operation does not rewrite is found where it was found. -/
theorem find_untouched {rec : UserRecord} {off : ℕ} {r : o.Ret}
    (hfind : userdbFind s.users key = some (rec, off)) (ho : o.rewritesRecord key off = false)
    (h : o.exec s c = some (s', r)) : userdbFind s'.users key = some (rec, off) := by
  obtain ⟨hrec, hkey, hfirst⟩ := userdbFind_eq_some.1 hfind
  by_cases hstore : o.store = some .users
  · cases o <;> simp only [Op.store, Option.some.injEq, reduceCtorEq] at hstore
    case userdbAppend new =>
      simp only [Op.exec] at h
      split_ifs at h <;> cases h
      · rw [userdbAppend, userdbFind_append, hfind]
        rfl
      · exact hfind
    case userdbUpdateAt off' new =>
      simp only [Op.rewritesRecord, Bool.or_eq_false_iff, beq_eq_false_iff_ne, ne_eq] at ho
      simp only [Op.exec] at h
      split_ifs at h <;> cases h
      · refine userdbFind_eq_some.2 ⟨?_, hkey, fun j hj r hr => ?_⟩
        · rw [userdbUpdateAt, List.getElem?_set_ne ho.1]
          exact hrec
        · by_cases hoff : off' = j
          · subst hoff
            rw [userdbUpdateAt, List.getElem?_set, if_pos rfl] at hr
            split_ifs at hr
            cases hr
            exact ho.2
          · rw [userdbUpdateAt, List.getElem?_set_ne hoff] at hr
            exact hfirst j hj r hr
      · exact hfind
    case userdbBurnAt off' =>
      simp only [Op.rewritesRecord, beq_eq_false_iff_ne, ne_eq] at ho
      simp only [Op.exec] at h
      split_ifs at h <;> cases h
      · obtain ⟨rec', hfind'⟩ := userdbFind_congr hfind fun j _ => keyAt_burnAt (o := off') j
        have hrec' := (userdbFind_eq_some.1 hfind').1
        have hsame : rec = rec' := by
          simpa [userdbBurnAt, List.getElem?_modify, ho, hrec] using hrec'
        exact hsame ▸ hfind'
      · exact hfind
    all_goals cases ho
  · rw [(exec_frame h).users hstore]
    exact hfind

/-! ### What a sale has done -/

/-- The document is in the sandbox of the key. -/
def InSandbox (s : Shared) (key : Key) (d : ℤ) (doc : DocFile) : Prop :=
  s.files.get (userDir s.cwd key.bytes) d = some doc

/-- No order under the id asks for more than the tags. -/
def OrdersWithin (npcs : List NPCSlot) (npcId : ℤ) (tags : Tags) : Prop :=
  ∀ npc ∈ npcs, npc.orders npcId = true → Covers tags npc.requiredTags

/-- The documents checked so far, with the union of their tags. -/
def Checked (s : Shared) (key : Key) (ids : List ℤ) (tagUnion : Tags) : Prop :=
  ∃ docs, List.Forall₂ (InSandbox s key) ids docs ∧ tagUnion = unionOf (docs.map (·.tags))

/-- **What a sale has done** before a point, and what it relies on there. -/
def Sell.Right (s : Shared) (key : Key) (npcId : ℤ) (docIds : List ℤ) (sts : List SaleStep) :
    Sell → Prop
  | .findNpc | .announce => True
  | .has npc d todo tagUnion | .read npc d todo tagUnion =>
    (∀ st ∈ sts, st.Quiet) ∧ OrdersWithin s.npcs npcId (tagUnion ||| npc.requiredTags) ∧
    ∃ pre, docIds = pre ++ d :: todo ∧ Checked s key pre tagUnion
  | .frozen npc df todo tagUnion =>
    (∀ st ∈ sts, st.Quiet) ∧ OrdersWithin s.npcs npcId (tagUnion ||| npc.requiredTags) ∧
    ∃ pre d, docIds = pre ++ d :: todo ∧ Checked s key pre tagUnion ∧ InSandbox s key d df
  | .take => (∀ st ∈ sts, st.Quiet) ∧
    ∃ tagUnion, Checked s key docIds tagUnion ∧ OrdersWithin s.npcs npcId tagUnion
  | .dispose npc d todo _ => TookOrder npcId docIds npc sts fun discards x doc =>
    Removed key discards x doc ∨ x ∈ d :: todo ∧ InSandbox s key x doc
  | .lookup npc _ => Discarded key npcId docIds npc sts
  | .credit npc _ rec offset => ∃ done lookup, sts = done ++ [lookup] ∧
    Discarded key npcId docIds npc done ∧ lookup.Quiet ∧
    userdbFind s.users key = some (rec, offset)
  | .creditIndeterminate _ _ _ => False
  | .reply npc _ _ _ => ∃ done lookup credit, sts = done ++ [lookup, credit] ∧
    Discarded key npcId docIds npc done ∧ lookup.Quiet ∧ credit.Credits key npc.bounty

/-- What a sale under way has done agrees with its history. -/
def Thread.Right (s : Shared) (sts : List SaleStep) : Thread → Prop
  | .session _ key (.sell npcId docIds pc) => pc.Right s key npcId docIds sts
  | _ => True

/-! ### Tags -/

theorem covers_or_left {t u : Tags} (r : Tags) (h : Covers t u) : Covers (t ||| r) u := by
  rw [Covers, BitVec.and_comm, BitVec.and_or_distrib_left, BitVec.and_comm u t, h]
  ext i hi
  simp only [BitVec.getElem_or, BitVec.getElem_and]
  cases u[i] <;> simp

theorem Covers.trans {t u v : Tags} (h : Covers t u) (h' : Covers u v) : Covers t v := by
  rw [Covers] at *
  rw [← h', ← BitVec.and_assoc, h, h']

theorem covers_self (t : Tags) : Covers t t := BitVec.and_self

theorem Covers.or {t u v : Tags} (h : Covers t u) (h' : Covers t v) : Covers t (u ||| v) := by
  rw [Covers, BitVec.and_or_distrib_left, h, h']

/-! ### What others do to it -/

/-- An order on the board is an old one, or the one the operation puts up. -/
theorem board_slot (hB : BoardOp s o npcs') (hi : npcs'[i]? = some npc) (hact : npc.active = true) :
    s.npcs[i]? = some npc ∨ ∃ bounty, o = .npcAdd npc.npcId npc.requiredTags bounty ∧
      npc.bounty = bounty ∧ (s.npcs.findIdx? fun npc => !npc.active) = some i := by
  cases hB with
  | same h => exact .inl (h ▸ hi)
  | take n npc' ho h =>
    obtain ⟨j, -, -, rfl⟩ := npcTake_slot h
    rw [List.getElem?_set] at hi
    split_ifs at hi with hij
    · cases hi
      cases hact
    · exact .inl hi
  | add n tags bounty ho h =>
    obtain ⟨j, hfree, -, rfl⟩ := npcAdd_slot h
    rw [List.getElem?_set] at hi
    split_ifs at hi with hij
    · cases hi
      exact .inr ⟨bounty, ho, rfl, hij ▸ hfree⟩
    · exact .inl hi
  | drop p h =>
    subst h
    rw [List.getElem?_map] at hi
    obtain ⟨old, hold, rfl⟩ := Option.map_eq_some_iff.1 hi
    split_ifs at hact ⊢ with hp
    exact .inl hold
  | init h =>
    rw [h] at hi
    obtain rfl := List.eq_of_mem_replicate (List.mem_of_getElem? hi)
    cases hact

/-- Orders stay within the tags as long as what is put up does. -/
theorem OrdersWithin.step (h : OrdersWithin s.npcs n tags) {r : o.Ret}
    (hr : o.exec s c = some (s', r))
    (hnew : ∀ new bounty, o = .npcAdd n new bounty → Covers tags new) :
    OrdersWithin s'.npcs n tags := by
  intro npc hnpc horders
  obtain ⟨i, hi⟩ := List.getElem?_of_mem hnpc
  obtain ⟨hact, hid⟩ : npc.active = true ∧ npc.npcId = n := by simpa [NPCSlot.orders] using horders
  rcases board_slot (board_op hr) hi hact with hold | ⟨bounty, ho, -, -⟩
  · exact h npc (List.mem_of_getElem? hold) horders
  · exact hnew npc.requiredTags bounty (hid ▸ ho)

/-- A document that an operation does not touch stays in the sandbox. -/
theorem InSandbox.step {doc : DocFile} (h : InSandbox s key d doc) (hs : s.files.Housed)
    {r : o.Ret} (hr : o.exec s c = some (s', r))
    (hx : (userDir s.cwd key.bytes, d) ∉ o.touches s.cwd) :
    InSandbox s' key d doc := by
  rw [InSandbox, (exec_frame hr).cwd, get_untouched hs hx hr]
  exact h

theorem Checked.step {ids : List ℤ} (h : Checked s key ids tags) (hs : s.files.Housed)
    {r : o.Ret} (hr : o.exec s c = some (s', r))
    (hx : ∀ d ∈ ids, (userDir s.cwd key.bytes, d) ∉ o.touches s.cwd) : Checked s' key ids tags := by
  obtain ⟨docs, hdocs, htags⟩ := h
  refine ⟨docs, ?_, htags⟩
  induction hdocs generalizing tags with
  | nil => exact .nil
  | cons hd _ ih =>
    exact .cons (hd.step hs hr (hx _ List.mem_cons_self))
      (ih (fun d hd => hx d (List.mem_cons_of_mem _ hd)) rfl)

/-- The tags of the files are the tags that were checked. -/
theorem Checked.filesTags {ids : List ℤ} (h : Checked s key ids tags) :
    filesTags s key ids = tags := by
  obtain ⟨docs, hdocs, rfl⟩ := h
  have hfiles : ids.filterMap (s.files.get (userDir s.cwd key.bytes)) = docs := by
    induction hdocs with
    | nil => rfl
    | cons hd _ ih => rw [List.filterMap_cons_some hd, ih]
  rw [UnderFlow.filesTags, hfiles]

/-- **An operation of another thread** that spares a sale leaves it as it was. -/
theorem right_frame (h : q.Right s key n ds sts) (hs : s.files.Housed)
    (hsp : Spares s o (.session sock key (.sell n ds q))) {r : o.Ret}
    (hr : o.exec s c = some (s', r)) : q.Right s' key n ds sts := by
  have hfiles : ∀ ids, ids ⊆ q.relies ds →
      ∀ d ∈ ids, (userDir s.cwd key.bytes, d) ∉ o.touches s.cwd :=
    fun ids hids d hd => hsp.files _ (List.mem_map_of_mem (hids hd))
  have horders : ∀ tags, q.seeks s key ds = some tags → ∀ new bounty, o = .npcAdd n new bounty →
      Covers tags new := by
    intro tags htags new bounty ho
    exact hsp.orders n new bounty ho (n, tags) (by simp [Thread.seeks, htags]) rfl
  cases q with
  | has npc d todo tagUnion | read npc d todo tagUnion =>
    obtain ⟨hquiet, hwithin, pre, rfl, hchecked⟩ := h
    have hrel : (pre ++ d :: todo).take ((pre ++ d :: todo).length - (todo.length + 1)) = pre :=
      take_prefix pre (d :: todo)
    refine ⟨hquiet, hwithin.step hr (horders _ rfl), pre, rfl, hchecked.step hs hr (hfiles pre ?_)⟩
    rw [Sell.relies, hrel]
    exact List.Subset.refl pre
  | frozen npc df todo tagUnion =>
    obtain ⟨hquiet, hwithin, pre, d, rfl, hchecked, hdf⟩ := h
    have hrel : (Sell.frozen npc df todo tagUnion).relies (pre ++ d :: todo) = pre ++ [d] := by
      simpa [Sell.relies] using take_prefix (pre ++ [d]) todo
    refine ⟨hquiet, hwithin.step hr (horders _ rfl), pre, d, rfl,
      hchecked.step hs hr (hfiles pre ?_), hdf.step hs hr (hfiles [d] ?_ d List.mem_cons_self)⟩
    · rw [hrel]
      exact List.subset_append_left pre [d]
    · rw [hrel]
      exact List.subset_append_right pre [d]
  | take =>
    obtain ⟨hquiet, tagUnion, hchecked, hwithin⟩ := h
    refine ⟨hquiet, tagUnion, hchecked.step hs hr (hfiles ds (List.Subset.refl ds)),
      hwithin.step hr (horders tagUnion ?_)⟩
    rw [Sell.seeks, hchecked.filesTags]
  | dispose npc d todo sold =>
    obtain ⟨i, docs, checks, discards, take, hsts, hquiet, hid, htake, hcovers, hdisc, hdocs⟩ := h
    refine ⟨i, docs, checks, discards, take, hsts, hquiet, hid, htake, hcovers, hdisc, ?_⟩
    refine hdocs.imp fun x doc hx => ?_
    rcases hx with hgone | ⟨hmem, hin⟩
    · exact .inl hgone
    · exact .inr ⟨hmem, hin.step hs hr (hfiles (d :: todo) (List.Subset.refl _) x hmem)⟩
  | credit npc sold rec off =>
    obtain ⟨done, lookup, hsts, hdone, hquiet, hfind⟩ := h
    exact ⟨done, lookup, hsts, hdone, hquiet, find_untouched hfind (hsp.record (key, off) rfl) hr⟩
  | findNpc | lookup npc sold | creditIndeterminate npc sold rec | reply npc sold rec old
  | announce => exact h

/-! ### The steps of a sale -/

/-- Orders of one id ask for the same tags. -/
def SameTags (npcs : List NPCSlot) : Prop :=
  ∀ n, ∀ x ∈ npcs, x.orders n = true → ∀ y ∈ npcs, y.orders n = true →
    x.requiredTags = y.requiredTags

/-- What the call has done before a step of it. -/
def Sell.before (sts : List SaleStep) (pc : Sell) : List SaleStep := if pc.begins then [] else sts

theorem SaleStep.quiet_concat {st : SaleStep} (h : ∀ st ∈ sts, st.Quiet) (hst : st.Quiet) :
    ∀ st' ∈ sts ++ [st], st'.Quiet := by
  intro st' hmem
  rcases List.mem_append.1 hmem with hold | hnew
  · exact h st' hold
  · exact List.mem_singleton.1 hnew ▸ hst

theorem SaleStep.quiet_self (s : Shared) : (SaleStep.mk s s).Quiet := ⟨rfl, rfl, rfl⟩

theorem Checked.concat {ids : List ℤ} {doc : DocFile} (h : Checked s key ids tags)
    (hd : InSandbox s key d doc) : Checked s key (ids ++ [d]) (tags ||| doc.tags) := by
  obtain ⟨docs, hdocs, rfl⟩ := h
  refine ⟨docs ++ [doc], List.rel_append hdocs (.cons hd .nil), ?_⟩
  rw [List.map_append, List.map_singleton, unionOf_concat]

/-- The next check, or the subset test after the last one. -/
theorem right_check (pre : List ℤ) (hds : ds = pre ++ todo) (hquiet : ∀ st ∈ sts, st.Quiet)
    (hwithin : OrdersWithin s.npcs n (tags ||| npc.requiredTags))
    (hchecked : Checked s key pre tags)
    (h : Sell.check npc tags todo = .cont q) : q.Right s key n ds sts := by
  cases todo with
  | nil =>
    simp only [Sell.check] at h
    split_ifs at h with hcovers
    cases h
    rw [not_not] at hcovers
    rw [List.append_nil] at hds
    refine ⟨hquiet, tags, hds ▸ hchecked, fun x hx horders => ?_⟩
    exact ((covers_self tags).or hcovers).trans (hwithin x hx horders)
  | cons d todo =>
    cases h
    exact ⟨hquiet, hwithin, pre, hds, hchecked⟩

/-- The next removal, or the lookup after the last one. -/
theorem right_disposeNext {sold : List DocFile}
    (h : TookOrder n ds npc sts fun discards x doc =>
      Removed key discards x doc ∨ x ∈ todo ∧ InSandbox s key x doc) :
    (Sell.disposeNext npc sold todo).Right s key n ds sts := by
  cases todo with
  | nil =>
    obtain ⟨i, docs, checks, discards, take, hsts, hquiet, hid, htake, hcovers, hdisc, hdocs⟩ := h
    refine ⟨i, docs, checks, discards, take, hsts, hquiet, hid, htake, hcovers, hdisc, ?_⟩
    refine hdocs.imp fun x doc hx => ?_
    rcases hx with hgone | ⟨hmem, -⟩
    · exact hgone
    · cases hmem
  | cons d todo => exact h

/-- The order that is taken asks for no more than the documents have. -/
theorem right_take {sold : List DocFile} (hquiet : ∀ st ∈ sts, st.Quiet)
    (hchecked : Checked s key ds tags) (hwithin : OrdersWithin s.npcs n tags)
    (h : npcTake s.npcs n = some (npc, npcs)) :
    (Sell.disposeNext npc sold ds).Right { s with npcs := npcs } key n ds
      (sts ++ [⟨s, { s with npcs := npcs }⟩]) := by
  obtain ⟨docs, hdocs, rfl⟩ := hchecked
  obtain ⟨i, hi, horders, rfl⟩ := npcTake_slot h
  obtain ⟨hact, hid⟩ : npc.active = true ∧ npc.npcId = n := by simpa [NPCSlot.orders] using horders
  refine right_disposeNext ⟨i, docs, sts, [], _, rfl, hquiet, hid, ⟨hi, hact, rfl, rfl, rfl⟩,
    hwithin npc (List.mem_of_getElem? hi) horders, (by rintro _ ⟨⟩), ?_⟩
  refine List.forall₂_iff_get.2 ⟨hdocs.length_eq, fun j h₁ h₂ => .inr ⟨List.getElem_mem h₁, ?_⟩⟩
  exact hdocs.get h₁ h₂

/-- The removal of a document. -/
theorem TookOrder.dispose (h : TookOrder n ds npc sts fun discards x doc =>
      Removed key discards x doc ∨ x ∈ d :: todo ∧ InSandbox s key x doc)
    (hr : s' = { s with files := (s.files.unlink (userDir s.cwd key.bytes) d).2 }) :
    TookOrder n ds npc (sts ++ [⟨s, s'⟩]) fun discards x doc =>
      Removed key discards x doc ∨ x ∈ todo ∧ InSandbox s' key x doc := by
  obtain ⟨i, docs, checks, discards, take, rfl, hquiet, hid, htake, hcovers, hdisc, hdocs⟩ := h
  have hget : ∀ x, s'.files.get (userDir s'.cwd key.bytes) x =
      if x = d then none else s.files.get (userDir s.cwd key.bytes) x := by
    intro x
    subst hr
    simp [Files.get_unlink]
  refine ⟨i, docs, checks, discards ++ [⟨s, s'⟩], take, by simp, hquiet, hid, htake,
    hcovers, ?_, ?_⟩
  · intro st hst
    rcases List.mem_append.1 hst with hold | hnew
    · exact hdisc st hold
    · obtain rfl := List.mem_singleton.1 hnew
      subst hr
      exact ⟨rfl, rfl⟩
  · refine hdocs.imp fun x doc hx => ?_
    rcases hx with ⟨st, hst, hgone⟩ | ⟨hmem, hin⟩
    · exact .inl ⟨st, List.mem_append_left _ hst, hgone⟩
    · by_cases hxd : x = d
      · subst hxd
        refine .inl ⟨_, List.mem_append_right _ List.mem_cons_self, hin, ?_⟩
        exact (hget x).trans (if_pos rfl)
      · refine .inr ⟨(List.mem_cons.1 hmem).resolve_left hxd, ?_⟩
        exact (hget x).trans ((if_neg hxd).trans hin)

/-- The bounty is paid to the record that was looked up. -/
theorem credits_updateAt {rec : UserRecord} {off : ℕ} {bounty : ℤ}
    (h : userdbFind s.users key = some (rec, off)) :
    (SaleStep.mk s { s with
      users := userdbUpdateAt s.users off { rec with money := rec.money + bounty } }).Credits key
      bounty where
  npcs := rfl
  files := rfl
  raised := ⟨rec.money, by rw [balanceOf, h, Option.map_some], balanceOf_set h (userdbFind_mem h).2⟩

/-- **A step of a sale**. -/
theorem right_own {q' : Sell} (hR : q.Right s key n ds sts) (hsame : SameTags s.npcs)
    (hok : (Thread.session sock key (.sell n ds q)).SaleOk s c)
    (h : (handleSell sock key n ds q).Steps s c s' (.cont q')) :
    q'.Right s' key n ds (q.before sts ++ [⟨s, s'⟩]) := by
  obtain ⟨r, hr, hn⟩ := h
  cases q with
  | findNpc =>
    cases hr
    simp only [handleSell] at hn
    split at hn
    · cases hn
    · rename_i npc hnpc
      refine right_check [] rfl (SaleStep.quiet_concat (by rintro _ ⟨⟩) (SaleStep.quiet_self s)) ?_
        ⟨[], .nil, rfl⟩ hn.symm
      -- every slot that holds the order asks for the same tags
      intro x hx horders
      have hfound : npc.orders n = true := List.find?_some hnpc
      rw [hsame n x hx horders npc (List.mem_of_find?_eq_some hnpc) hfound, BitVec.or_comm]
      exact covers_or_left 0 (covers_self npc.requiredTags)
  | has npc d todo tagUnion =>
    obtain ⟨hquiet, hwithin, pre, hpre⟩ := hR
    cases hr
    simp only [handleSell] at hn
    split_ifs at hn
    cases hn
    exact ⟨SaleStep.quiet_concat hquiet (SaleStep.quiet_self s), hwithin, pre, hpre⟩
  | read npc d todo tagUnion =>
    obtain ⟨hquiet, hwithin, pre, hds, hchecked⟩ := hR
    cases hr
    simp only [handleSell] at hn
    split at hn
    · cases hn
    · rename_i df hdf
      cases hn
      refine ⟨SaleStep.quiet_concat hquiet (SaleStep.quiet_self s), hwithin, pre, d,
        hds, hchecked, ?_⟩
      split_ifs at hdf
      exact hdf
  | frozen npc df todo tagUnion =>
    obtain ⟨hquiet, hwithin, pre, d, hds, hchecked, hdf⟩ := hR
    cases hr
    simp only [handleSell] at hn
    split_ifs at hn
    refine right_check (pre ++ [d]) (by simpa using hds)
      (SaleStep.quiet_concat hquiet (SaleStep.quiet_self s)) ?_
      (hchecked.concat hdf) hn.symm
    intro x hx horders
    have hold := covers_or_left df.tags (hwithin x hx horders)
    rwa [BitVec.or_assoc, BitVec.or_comm npc.requiredTags, ← BitVec.or_assoc] at hold
  | take =>
    obtain ⟨hquiet, tagUnion, hchecked, hwithin⟩ := hR
    rcases exec_npcTake hr with ⟨rfl, rfl, -⟩ | ⟨npc, npcs, rfl, rfl, ht⟩
    · cases hn
    · cases hn
      exact right_take hquiet hchecked hwithin ht
  | dispose npc d todo sold =>
    have hok : c.ok = true := hok
    simp only [handleSell, Op.exec, hok, if_true, Option.some.injEq] at hr
    cases hr
    cases hn
    exact right_disposeNext (TookOrder.dispose hR rfl)
  | lookup npc sold =>
    obtain ⟨hok, hthere⟩ : c.ok = true ∧ (userdbFind s.users key).isSome = true := hok
    obtain ⟨rfl, ⟨-, p, hfind, rfl⟩ | ⟨hnone, -⟩⟩ := exec_find hr
    · cases hn
      exact ⟨sts, _, rfl, hR, SaleStep.quiet_self s', hfind⟩
    · rw [hnone hok] at hthere
      cases hthere
  | credit npc sold rec off =>
    obtain ⟨hok, hfits⟩ : c.ok = true ∧ InInt32 (rec.money + npc.bounty) := hok
    obtain ⟨done, lookup, rfl, hdone, hquiet, hfind⟩ := hR
    simp only [handleSell, Op.exec, hok, if_true, wrapInt32_eq hfits, Option.some.injEq] at hr
    cases hr
    cases hn
    exact ⟨done, lookup, _, by simp [Sell.before, Sell.begins], hdone, hquiet,
      credits_updateAt hfind⟩
  | creditIndeterminate npc sold rec => exact hR.elim
  | reply npc sold rec old =>
    cases hn
    trivial
  | announce => cases hn

/-! ### The answers -/

/-- An error is answered before anything is done. -/
theorem refused_own {code : ErrorCode} {reason : Bytes} (hR : q.Right s key n ds sts)
    (h : (handleSell sock key n ds q).Steps s c s' (.fail code reason)) :
    ∀ st ∈ q.before sts ++ [⟨s, s'⟩], st.Quiet := by
  obtain ⟨r, hr, hn⟩ := h
  cases q with
  | findNpc =>
    cases hr
    exact SaleStep.quiet_concat (by rintro _ ⟨⟩) (SaleStep.quiet_self s)
  | has npc d todo tagUnion | read npc d todo tagUnion | frozen npc df todo tagUnion =>
    cases hr
    exact SaleStep.quiet_concat hR.1 (SaleStep.quiet_self s)
  | take =>
    rcases exec_npcTake hr with ⟨rfl, rfl, -⟩ | ⟨npc, npcs, rfl, rfl, ht⟩
    · exact SaleStep.quiet_concat hR.1 (SaleStep.quiet_self s')
    · cases hn
  | lookup npc sold => rcases r with rec | p <;> cases hn
  | dispose npc d todo sold | credit npc sold rec off | creditIndeterminate npc sold rec
  | reply npc sold rec old | announce => cases hn

theorem mem_saleAnswer {x : Next Sell} {e : SaleEvent} (h : e ∈ saleAnswer t key n ds o x) :
    (∃ sock bounty money, o = .packetSend sock (.sellOk bounty money) ∧ e = .paid t key n ds) ∨
      ∃ code reason, x = .fail code reason ∧ e = .refused t := by
  unfold saleAnswer at h
  split at h
  · exact .inl ⟨_, _, _, rfl, List.mem_singleton.1 h⟩
  · exact .inr ⟨_, _, rfl, List.mem_singleton.1 h⟩
  · cases h

theorem length_saleAnswer (t : ℕ) (key : Key) (n : ℤ) (ds : List ℤ) (o : Op) (x : Next Sell) :
    (saleAnswer t key n ds o x).length ≤ 1 := by
  unfold saleAnswer
  split <;> simp

/-- **The answer is sound.** -/
theorem answer_sound {r : (handleSell sock key n ds q).op.Ret} {e : SaleEvent}
    (hR : q.Right s key n ds sts)
    (hr : (handleSell sock key n ds q).op.exec s c = some (s', r))
    (hsts : saleSteps t hist = q.before sts ++ [⟨s, s'⟩])
    (he : e ∈ saleAnswer t key n ds (handleSell sock key n ds q).op
      ((handleSell sock key n ds q).next r)) : SaleSound hist e := by
  rcases mem_saleAnswer he with ⟨sock', bounty, money, ho, rfl⟩ | ⟨code, reason, hx, rfl⟩
  · cases q with
    | reply npc sold rec old =>
      obtain ⟨done, lookup, credit, rfl, hdone, hlookup, hcredit⟩ := hR
      cases hr
      refine ⟨npc, done, lookup, credit, ⟨s, s⟩, ?_, hdone, hlookup, hcredit, SaleStep.quiet_self s⟩
      simp [hsts, Sell.before, Sell.begins]
    | _ => cases ho
  · rw [SaleSound, hsts]
    exact refused_own hR ⟨r, hr, hx.symm⟩

/-! ### The record of a step -/

theorem sell_events {r : (handleSell sock key n ds q).op.Ret}
    (hr : (handleSell sock key n ds q).op.exec s c = some (s', r)) :
    q.events t s c sock key n ds = (if q.begins then [.request t] else []) ++ .step t s s' ::
      saleAnswer t key n ds (handleSell sock key n ds q).op
        ((handleSell sock key n ds q).next r) := by
  rw [Sell.events, hr]

theorem handleSell_posted (s : Shared) : (handleSell sock key n ds q).op.posted s = [] := by
  cases q <;> rfl

/-- What a step records of its thread. -/
theorem mem_saleEvents {e : SaleEvent} {r : a.op.Ret} (ha : th.action = some a)
    (hr : a.op.exec s c = some (s', r)) (he : e ∈ th.saleEvents t s c) :
    e = .request t ∨ e = .step t s s' ∨ (∃ key n ds, e = .paid t key n ds) ∨ e = .refused t := by
  cases th with
  | session sock key pc =>
    cases pc with
    | recv =>
      simp only [Thread.saleEvents] at he
      split_ifs at he
      · simp only [List.mem_cons, List.not_mem_nil, or_false] at he
        exact he.imp_right fun h => .inr (.inr h)
      · cases he
    | sell n ds q =>
      cases ha
      have hev := sell_events (t := t) hr
      rw [Thread.saleEvents, hev, List.mem_append, List.mem_cons] at he
      rcases he with h | h | h
      · split_ifs at h
        · exact .inl (List.mem_singleton.1 h)
        · cases h
      · exact .inr (.inl h)
      · rcases mem_saleAnswer h with ⟨_, _, _, -, rfl⟩ | ⟨_, _, -, rfl⟩
        · exact .inr (.inr (.inl ⟨key, n, ds, rfl⟩))
        · exact .inr (.inr (.inr rfl))
    | _ => cases he
  | _ => cases he

theorem mem_posted {e : SaleEvent} (he : e ∈ o.posted s) : ∃ i ord, e = .posted i ord := by
  cases o with
  | npcAdd n tags bounty =>
    obtain ⟨i, -, rfl⟩ := Option.map_eq_some_iff.1 (Option.mem_toList.1 he)
    exact ⟨i, _, rfl⟩
  | _ => cases he

/-- An order that is recorded as taken is taken by the step. -/
theorem takes_event {e : SaleEvent} {r : a.op.Ret} (ha : th.action = some a)
    (hr : a.op.exec s c = some (s', r)) (he : e ∈ a.op.posted s ++ th.saleEvents t s c)
    (hi : e.TakesSlot i) : ∃ npc, SaleStep.Takes i npc ⟨s, s'⟩ := by
  rcases List.mem_append.1 he with he | he
  · obtain ⟨j, ord, rfl⟩ := mem_posted he
    exact hi.elim
  · rcases mem_saleEvents ha hr he with rfl | rfl | ⟨_, _, _, rfl⟩ | rfl
    · exact hi.elim
    · exact hi
    · exact hi.elim
    · exact hi.elim

/-- Events that leave the operations of a thread as they are. -/
theorem saleSteps_append {u : ℕ} (h : ∀ e ∈ ev, ∀ sts, saleStep u sts e = sts) :
    saleSteps u (hist ++ ev) = saleSteps u hist := by
  rw [saleSteps, List.foldl_append]
  change ev.foldl (saleStep u) (saleSteps u hist) = saleSteps u hist
  generalize saleSteps u hist = sts
  induction ev generalizing sts with
  | nil => rfl
  | cons e ev ih =>
    rw [List.foldl_cons, h e List.mem_cons_self]
    exact ih (fun e he => h e (List.mem_cons_of_mem _ he)) sts

/-- What is recorded of one thread is no matter of another. -/
theorem saleSteps_other {u : ℕ} (hu : u ≠ t) {r : a.op.Ret} (ha : th.action = some a)
    (hr : a.op.exec s c = some (s', r)) :
    saleSteps u (hist ++ (a.op.posted s ++ th.saleEvents t s c)) = saleSteps u hist := by
  refine saleSteps_append fun e he sts => ?_
  rcases List.mem_append.1 he with he | he
  · obtain ⟨j, ord, rfl⟩ := mem_posted he
    rfl
  · rcases mem_saleEvents ha hr he with rfl | rfl | ⟨_, _, _, rfl⟩ | rfl
    · exact if_neg hu.symm
    · exact if_neg hu.symm
    · rfl
    · rfl

/-- The operations of a call after a step of it. -/
theorem saleSteps_step (q : Sell) :
    saleSteps t (hist ++ (if q.begins then [.request t] else []) ++ [.step t s s']) =
      q.before (saleSteps t hist) ++ [⟨s, s'⟩] := by
  cases hq : q.begins <;> simp [saleSteps, saleStep, Sell.before, hq]

theorem saleSteps_answer (x : Next Sell) :
    saleSteps t (hist ++ saleAnswer t key n ds o x) = saleSteps t hist := by
  refine saleSteps_append fun e he sts => ?_
  rcases mem_saleAnswer he with ⟨_, _, _, -, rfl⟩ | ⟨_, _, -, rfl⟩ <;> rfl

/-- The operations of a call after a step of its thread. -/
theorem saleSteps_sell {r : a.op.Ret}
    (ha : (Thread.session sock key (.sell n ds q)).action = some a)
    (hr : a.op.exec s c = some (s', r)) :
    saleSteps t (hist ++ (a.op.posted s ++
      (Thread.session sock key (.sell n ds q)).saleEvents t s c)) =
        q.before (saleSteps t hist) ++ [⟨s, s'⟩] := by
  cases ha
  have hnone : (handleSell sock key n ds q).op.posted s = [] := handleSell_posted s
  have hev := sell_events (t := t) hr
  change saleSteps t (hist ++ ((handleSell sock key n ds q).op.posted s ++
    q.events t s c sock key n ds)) = _
  rw [hnone, List.nil_append, hev, List.append_cons, ← List.append_assoc, ← List.append_assoc,
    saleSteps_answer]
  exact saleSteps_step q

/-! ### Runs -/

/-- Every order on the board has been put up in its slot, and not been taken since. -/
def OrdersPosted (npcs : List NPCSlot) (hist : List SaleEvent) : Prop :=
  ∀ i npc, npcs[i]? = some npc → npc.active = true → PostedAnew hist i npc

theorem PostedAnew.append (h : PostedAnew hist i npc) (hev : ∀ e ∈ ev, ¬ e.TakesSlot i) :
    PostedAnew (hist ++ ev) i npc := by
  obtain ⟨pre, post, rfl, hpost⟩ := h
  refine ⟨pre, post ++ ev, by simp, fun e he => ?_⟩
  exact (List.mem_append.1 he).elim (hpost e) (hev e)

theorem ordersPosted_step (hP : OrdersPosted s.npcs hist) {r : a.op.Ret} (ha : th.action = some a)
    (hr : a.op.exec s c = some (s', r)) :
    OrdersPosted s'.npcs (hist ++ (a.op.posted s ++ th.saleEvents t s c)) := by
  intro i npc hi hact
  -- an order that is taken in this step is on the board no longer
  have hkept : ∀ e ∈ a.op.posted s ++ th.saleEvents t s c, ¬ e.TakesSlot i := by
    intro e he htakes
    obtain ⟨npc', hslot, -, hnpcs, -, -⟩ := takes_event ha hr he htakes
    dsimp only at hslot hnpcs
    rw [hnpcs, List.getElem?_set_self (List.getElem?_eq_some_iff.1 hslot).1] at hi
    cases hi
    cases hact
  rcases board_slot (board_op hr) hi hact with hold | ⟨bounty, ho, rfl, hfree⟩
  · exact (hP i npc hold hact).append hkept
  · have hposted : a.op.posted s = [.posted i (npc.npcId, npc.requiredTags, npc.bounty)] := by
      rw [ho]
      simp [Op.posted, hfree]
    refine ⟨hist, th.saleEvents t s c, by rw [hposted]; rfl, fun e he => ?_⟩
    exact hkept e (List.mem_append_right _ he)

theorem sameTags_step (hS : SameTags s.npcs) {r : o.Ret} (hr : o.exec s c = some (s', r))
    (hids : ∀ y ∈ o.order, ∀ npc ∈ s.npcs, npc.orders y.1 = true → npc.requiredTags = y.2) :
    SameTags s'.npcs := by
  have hslot : ∀ n, ∀ x ∈ s'.npcs, x.orders n = true →
      x ∈ s.npcs ∨ ∃ bounty, o = .npcAdd n x.requiredTags bounty := by
    intro n x hx horders
    obtain ⟨i, hi⟩ := List.getElem?_of_mem hx
    obtain ⟨hact, hid⟩ : x.active = true ∧ x.npcId = n := by simpa [NPCSlot.orders] using horders
    exact (board_slot (board_op hr) hi hact).imp List.mem_of_getElem? fun ⟨b, ho, _⟩ =>
      ⟨b, hid ▸ ho⟩
  intro n x hx hxn y hy hyn
  rcases hslot n x hx hxn with hxold | ⟨b, ho⟩
  · rcases hslot n y hy hyn with hyold | ⟨b', ho'⟩
    · exact hS n x hxold hxn y hyold hyn
    · subst ho'
      exact hids (n, y.requiredTags) rfl x hxold hxn
  · subst ho
    rcases hslot n y hy hyn with hyold | ⟨b', ho'⟩
    · exact (hids (n, x.requiredTags) rfl y hyold hyn).symm
    · injection ho' with _ htags _

/-- **The step of a sale records what is right.** -/
theorem sale_sound (hS : SalesSound hist) (hP : OrdersPosted s.npcs hist)
    (hR : q.Right s key n ds (saleSteps t hist)) {r : (handleSell sock key n ds q).op.Ret}
    (hr : (handleSell sock key n ds q).op.exec s c = some (s', r)) :
    SalesSound (hist ++ q.events t s c sock key n ds) := by
  rw [sell_events hr, List.append_cons, ← List.append_assoc, ← List.append_assoc]
  have hbegin : ∀ e ∈ (if q.begins then [SaleEvent.request t] else []), e = .request t := by
    intro e he
    split_ifs at he
    · exact List.mem_singleton.1 he
    · cases he
  have hrequest : SalesSound (hist ++ if q.begins then [.request t] else []) :=
    Along.append hS fun pre e post heq => by
      obtain rfl := hbegin e (heq ▸ List.mem_append_right _ List.mem_cons_self)
      trivial
  have hstep : SalesSound ((hist ++ if q.begins then [.request t] else []) ++ [.step t s s']) := by
    refine along_concat.2 ⟨hrequest, fun i npc htakes => ?_⟩
    refine (hP i npc htakes.slot htakes.active).append fun e he htaken => ?_
    obtain rfl := hbegin e he
    exact htaken.elim
  refine Along.append hstep fun pre e post heq => ?_
  have hlen := length_saleAnswer t key n ds (handleSell sock key n ds q).op
    ((handleSell sock key n ds q).next r)
  have hpre : pre = [] := by
    rw [heq, List.length_append, List.length_cons] at hlen
    exact List.length_eq_zero_iff.1 (by omega)
  subst hpre
  rw [List.append_nil]
  exact answer_sound hR hr (saleSteps_step q) (heq ▸ List.mem_cons_self)

/-- The invariant of guarded runs. -/
structure SaleInv (p : Server) (hist : List SaleEvent) : Prop where
  housed : p.shared.files.Housed
  sound : SalesSound hist
  posted : OrdersPosted p.shared.npcs hist
  same : SameTags p.shared.npcs
  right : ∀ (t : ℕ) (u : Thread), p.threads[t]? = some u →
    u.Right p.shared (saleSteps t hist)

theorem saleInv_boot {cwd : Dir} {files : Files} {users : UserDb} {clock : ℕ}
    (hfiles : files.Housed) : SaleInv (boot cwd files users clock) [] where
  housed := hfiles
  sound := along_nil
  posted i npc hi hact := by cases hi
  same n x hx horders := by cases hx
  right t u h := by
    obtain rfl := List.mem_singleton.1 (List.mem_of_getElem? h)
    trivial

variable {p p' : Server}

theorem posted_sound (hS : SalesSound hist) (o : Op) (s : Shared) :
    SalesSound (hist ++ o.posted s) :=
  Along.append hS fun pre e post heq => by
    obtain ⟨i, ord, rfl⟩ := mem_posted (heq ▸ List.mem_append_right _ List.mem_cons_self)
    trivial

/-- **The step of a thread records what is right.** -/
theorem thread_sound (hS : SalesSound hist) (hP : OrdersPosted s.npcs hist)
    (hR : th.Right s (saleSteps t hist)) {r : a.op.Ret} (ha : th.action = some a)
    (hr : a.op.exec s c = some (s', r)) :
    SalesSound (hist ++ (a.op.posted s ++ th.saleEvents t s c)) := by
  have hposted := posted_sound hS a.op s
  have hnil : SalesSound (hist ++ (a.op.posted s ++ [])) := by rwa [List.append_nil]
  cases th with
  | session sock key pc =>
    cases pc with
    | recv =>
      simp only [Thread.saleEvents]
      split_ifs
      · -- a sale that is refused for its count has done nothing
        have hnone : saleSteps t (hist ++ a.op.posted s ++ [.request t]) = [] := by
          simp [saleSteps, saleStep]
        have hrequest : SalesSound (hist ++ a.op.posted s ++ [.request t]) :=
          along_concat.2 ⟨hposted, trivial⟩
        have hrefused : SaleSound (hist ++ a.op.posted s ++ [.request t]) (.refused t) := by
          rw [SaleSound, hnone]
          rintro _ ⟨⟩
        have hboth : SalesSound (hist ++ a.op.posted s ++ [.request t] ++ [.refused t]) :=
          along_concat.2 ⟨hrequest, hrefused⟩
        simpa using hboth
      · exact hnil
    | sell n ds q =>
      cases ha
      have hnone : (handleSell sock key n ds q).op.posted s = [] := handleSell_posted s
      change SalesSound (hist ++ ((handleSell sock key n ds q).op.posted s ++ _))
      rw [hnone, List.nil_append]
      exact sale_sound hS hP hR hr
    | _ => exact hnil
  | _ => exact hnil

theorem saleInv_step {l : Label} (hI : SaleInv p hist) (hG : SaleGuard p l)
    (h : server.next p l = some p') : SaleInv p' (hist ++ saleEventsAt p l) := by
  cases l with
  | env e =>
    obtain rfl := Pool.next_env.1 h
    have hev : saleEventsAt p (.env e) = [] := rfl
    rw [hev, List.append_nil]
    refine ⟨hI.housed, hI.sound, hI.posted, hI.same, fun j u hu => ?_⟩
    have hold := hI.right j u hu
    cases u with
    | session sock key pc =>
      cases pc with
      | sell n ds q => cases q <;> exact hold
      | _ => trivial
    | _ => trivial
  | run t c =>
    obtain ⟨th, a, r, hth, ha, hr, hthreads⟩ := server_run h
    have hop : opAt p (.run t c) = some a.op := opAt_run hth ha
    have hev : saleEventsAt p (.run t c) = a.op.posted p.shared ++ th.saleEvents t p.shared c := by
      simp [saleEventsAt, hop, hth]
    rw [hev]
    refine ⟨housed_step hI.housed hr, thread_sound hI.sound hI.posted (hI.right t th hth) ha hr,
      ordersPosted_step hI.posted ha hr, sameTags_step hI.same hr (hG.ids a.op hop),
        fun j u hu => ?_⟩
    rw [hthreads] at hu
    rcases Pool.getElem?_step hu with ⟨hj, hold⟩ | ⟨rfl, rfl⟩ | hnew
    · rw [saleSteps_other hj ha hr]
      have hright := hI.right j u hold
      have hmem : u ∈ othersAt p (.run t c) := List.mem_eraseIdx_iff_getElem?.2 ⟨j, hj, hold⟩
      cases u with
      | session sock key pc =>
        cases pc with
        | sell n ds q => exact right_frame hright hI.housed (hG.others a.op hop _ hmem) hr
        | _ => trivial
      | _ => trivial
    · have ho := thread_origin ha ⟨r, hr, rfl⟩
      cases hnext : a.next r with
      | session sock key pc' =>
        rw [hnext] at ho
        obtain ⟨pc, hpc, hs⟩ | ⟨rfl, -⟩ := ho
        · cases pc' with
          | sell n ds q' =>
            rcases session_origin hs with ⟨rfl, -⟩ | ⟨q, rfl, hq⟩
            · trivial
            · subst hpc
              rw [saleSteps_sell ha hr]
              exact right_own (hI.right j _ hth) hI.same (hG.own _ hth) hq
          | _ => trivial
        · trivial
      | _ => trivial
    · obtain ⟨n, rfl⟩ | ⟨sock, -, rfl⟩ := spawned_start hnew
      · cases n <;> trivial
      · trivial

/-! ### Scripts -/

/-- Alice has bought a document. -/
def stockedScript : List Label :=
  startUp ++ connect 5 ++ logIn 2 (Key.ofBytes (utf8 "alice")) ++ receive 2 (.buy 124) :: steps 2 10

/-- She sells it to the order for its tags. -/
def soldScript : List Label :=
  stockedScript ++ receive 2 (.sell 102 1 (Vector.replicate _ 124)) :: steps 2 9

/-- She starts a raid and her sale takes the order; the raid runs out and burns her before the sale
removes the document. -/
def burnedScript : List Label :=
  stockedScript ++ receive 2 .triggerRaid :: steps 2 3 ++ steps 3 1 ++
    receive 2 (.sell 102 1 (Vector.replicate _ 124)) :: steps 2 5 ++ .env 15 :: steps 3 6 ++
    steps 2 4

/-- The last event says that a sale is paid, a document of which it has not removed. -/
def paidInVain (hist : List SaleEvent) : Bool :=
  match hist.getLast? with
  | some (.paid t key _ docIds) => docIds.any fun d => (saleSteps t hist.dropLast).all fun st =>
    (st.before.files.get (userDir st.before.cwd key.bytes) d).isNone ||
      (st.after.files.get (userDir st.after.cwd key.bytes) d).isSome
  | _ => false

/-- The event is a paid sale. -/
def SaleEvent.isPaid : SaleEvent → Bool
  | .paid _ _ _ _ => true
  | _ => false

/-- A paid sale has removed each of its documents. -/
theorem sold_removes (h : Sold key n ds sts) (hd : d ∈ ds) : ∃ doc, Removed key sts d doc := by
  obtain ⟨npc, done, lookup, credit, reply, rfl, hdone, -⟩ := h
  obtain ⟨i, docs, checks, discards, take, rfl, -, -, -, -, -, hdocs⟩ := hdone
  obtain ⟨j, hj, rfl⟩ := List.getElem_of_mem hd
  obtain ⟨st, hst, hgone⟩ := hdocs.get hj (hdocs.length_eq ▸ hj)
  exact ⟨_, st, by simp [hst], hgone⟩

theorem unsound_of_paidInVain (h : paidInVain hist = true) : ¬ SalesSound hist := by
  intro hS
  unfold paidInVain at h
  split at h
  · rename_i t key n ds hlast
    obtain ⟨pre, rfl⟩ := List.getLast?_eq_some_iff.1 hlast
    rw [List.dropLast_concat, List.any_eq_true] at h
    obtain ⟨d, hd, hnone⟩ := h
    obtain ⟨doc, st, hst, hheld, hgone⟩ := sold_removes (hS pre _ [] rfl) hd
    have hvain := List.all_eq_true.1 hnone st hst
    rw [hheld, hgone] at hvain
    cases hvain
  · cases h

/-- **Every sale is sound** in runs in which nobody interferes with a sale under way. -/
theorem salesSound_of_guard {cwd : Dir} {files : Files} {users : UserDb} {clock : ℕ}
    (hfiles : files.Housed) {x : Server × List SaleEvent}
    (hx : saleServer.Reach (fun x l => SaleGuard x.1 l) (boot cwd files users clock, []) x) :
    SalesSound x.2 :=
  (hx.invariant (I := fun x => SaleInv x.1 x.2) (saleInv_boot hfiles) fun x l x' _ hI hG hn => by
    obtain ⟨hn, hhist⟩ := System.withHistory_next.1 hn
    rw [hhist]
    exact saleInv_step hI hG hn).sound

/-- A guarded run in which a sale is paid. -/
theorem salesSound_alice : ∃ x,
    saleServer.Reach (fun x l => SaleGuard x.1 l) (freshBoot, []) x ∧
    x.2.any SaleEvent.isPaid = true ∧ SalesSound x.2 := by
  obtain ⟨x, hx, hf⟩ := saleServer.exists_reach_of_any (fun x l => SaleGuard x.1 l)
    (freshBoot, []) soldScript (fun x => x.2.any SaleEvent.isPaid) (by decide +kernel)
  exact ⟨x, hx, hf, salesSound_of_guard (fun _ _ => rfl) hx⟩

/-- Without the guard Alice is paid for a document that a raid has removed. -/
theorem not_salesSound : ∃ x, saleServer.Reach System.anyStep (freshBoot, []) x ∧
    ¬ SalesSound x.2 := by
  obtain ⟨x, hx, hf⟩ := saleServer.exists_reach_of_any System.anyStep (freshBoot, [])
    burnedScript (fun x => paidInVain x.2) (by decide +kernel)
  exact ⟨x, hx, unsound_of_paidInVain hf⟩

end UnderFlow
