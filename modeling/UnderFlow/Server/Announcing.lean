import UnderFlow.Server.Clerks
import UnderFlow.Server.Lives

/-!
# Announcements of listings

* `Announced` : every logged-in client is told of a listing once, and of its removal after it; when
  nothing is left to be announced, it shows no listing that is not on the market.
* `BoardGuard` : nobody waits for a snapshot while a listing is announced, no snapshot holds a
  listing that is still to be announced, and no removal is announced before its listing has been.
* `bulletin` : the market, the threads and the connections as a `Bulletin`.
* `board_run` : a guarded step of the server is a step of the bulletin.
* `announced_of_guard` : then `Announced` holds in every state of a run.
* `not_announced` : a listing is in the snapshot of a login, and is announced to it after that.
-/

namespace UnderFlow

variable {s s' : Shared} {c : Choice} {th th' u : Thread} {a : Action Thread} {o : Op} {t x : ℕ}
  {p p' : Server} {l : Label} {sock : ℕ} {key : Key} {d : ℤ} {pkt : Packet}
  {hist : List ConnEvent} {q q' : Server × List ConnEvent}

/-! ### What a player is told of a listing -/

/-- The packets since the last accepted login. -/
def sinceLogin (pkts : List Packet) : List Packet :=
  pkts.foldl (fun l pkt => if pkt.greets then [] else l ++ [pkt]) []

/-- What was written to a connection since its login was accepted. -/
def playStream (x : ℕ) (hist : List ConnEvent) : List Packet := sinceLogin (sent x hist)

/-- The connection of a handler that has accepted the login. -/
def Thread.playing : Thread → Option ℕ
  | .login sock pc => if pc.answered then some sock else none
  | .session sock _ _ => some sock
  | _ => none

/-- Every logged-in client is told of each listing at most once, and of no removal before that; when
no thread has a listing or a snapshot in hand and the client has processed what was written to it,
it shows no listing that is not on the market. -/
structure Announced (p : Server) (hist : List ConnEvent) : Prop where
  orderly : ∀ u ∈ p.threads, ∀ x, u.playing = some x → Orderly (notices (playStream x hist))
  current : (∀ u ∈ p.threads, u.clerk = {}) → ∀ u ∈ p.threads, ∀ x, u.playing = some x →
    ∀ money goal, ((UiClient.start money goal).run (playStream x hist)).mode ≠ .gameOver →
      ∀ d ∈ ((UiClient.start money goal).run (playStream x hist)).state.shownIds,
        d ∈ activeIds p.shared.market

/-! ### When it holds -/

/-- The listing an operation announces. -/
def Op.announces : Op → Option ℤ
  | .broadcast (.marketSpawn d _ _ _) => some d
  | _ => none

/-- The listing whose removal an operation announces. -/
def Op.retracts : Op → Option ℤ
  | .broadcast (.marketRemove d) => some d
  | _ => none

/-- The order of announcements and snapshots; outside of resets, with fresh ids. -/
structure BoardGuard (p : Server) (l : Label) : Prop where
  noReset : ∀ th ∈ threadAt p l, th.resets = false
  fresh : ∀ o ∈ opAt p l, o.store = some .docIds → p.shared.docIdCounter + 1 ∉ seedIds
  room : ∀ th ∈ threadAt p l, th.relists = true → marketIsFull p.shared.market = false
  announce : ∀ o ∈ opAt p l, ∀ d ∈ o.announces, ∀ u ∈ p.threads, u.clerk.greeting = []
  snapshot : ∀ th ∈ threadAt p l, th.clerk.greeting ≠ [] →
    ∀ u ∈ p.threads, ∀ d ∈ u.clerk.announcing, d ∉ activeIds p.shared.market
  retract : ∀ o ∈ opAt p l, ∀ d ∈ o.retracts, ∀ u ∈ p.threads,
    d ∉ u.clerk.announcing ∧ ∀ z ∈ u.clerk.sending, z.2 ≠ d

instance (p : Server) (l : Label) : Decidable (BoardGuard p l) :=
  decidable_of_iff (_ ∧ _ ∧ _ ∧ _ ∧ _ ∧ _)
    ⟨fun h => ⟨h.1, h.2.1, h.2.2.1, h.2.2.2.1, h.2.2.2.2.1, h.2.2.2.2.2⟩,
      fun h => ⟨h.noReset, h.fresh, h.room, h.announce, h.snapshot, h.retract⟩⟩

/-! ### The bulletin -/

/-- The market, the threads and the connections as a bulletin. -/
def bulletin (q : Server × List ConnEvent) : Bulletin ℤ ℕ ℕ where
  used := {d | d ∈ seedIds ∨ d ≤ q.1.shared.docIdCounter}
  active := {d | d ∈ activeIds q.1.shared.market}
  clerk t := (q.1.threads[t]?).elim {} Thread.clerk
  listening := {x | ∃ u ∈ q.1.threads, u.playing = some x}
  told x := notices (playStream x q.2)

/-! ### What a step writes -/

theorem connEvents_deliveries (hacc : o ≠ .accept) (hrecv : ∀ sock, o ≠ .packetRecv sock) :
    o.connEvents s c = (o.deliveries s).map fun w => .wrote w.1 w.2 := by
  cases o <;> first | exact absurd rfl hacc | exact absurd rfl (hrecv _) | rfl

/-- What an operation other than an accept writes is added to what was written. -/
theorem sent_deliveries (hacc : o ≠ .accept) : sent x (hist ++ o.connEvents s c) =
    sent x hist ++ packetsTo x (o.deliveries s) := by
  have hev : .accepted x ∉ o.connEvents s c := fun hmem => hacc (accepted_of_mem hmem).1
  rw [sent_append hev]
  congr 1
  by_cases hrecv : ∃ sock, o = .packetRecv sock
  · obtain ⟨sock, rfl⟩ := hrecv
    simp only [Op.connEvents, Op.deliveries]
    rcases c.request with _ | req
    · rfl
    · cases req <;> by_cases hx : sock = x <;>
        simp [packetsTo, ConnEvent.packet, ConnEvent.fd, hx]
  · rw [connEvents_deliveries hacc fun sock hs => hrecv ⟨sock, hs⟩, packetsTo]
    induction o.deliveries s with
    | nil => rfl
    | cons w ws ih =>
      by_cases hx : w.1 = x
      · simpa [ConnEvent.fd, ConnEvent.packet, hx] using ih
      · simpa [ConnEvent.fd, hx] using ih

theorem sinceLogin_concat (pkts : List Packet) (pkt : Packet) : sinceLogin (pkts ++ [pkt]) =
    if pkt.greets then [] else sinceLogin pkts ++ [pkt] := by
  simp [sinceLogin, List.foldl_append]

/-- One more packet for a connection. -/
theorem told_concat (hacc : o ≠ .accept) (hone : packetsTo x (o.deliveries s) = [pkt])
    (hg : pkt.greets = false) : notices (playStream x (hist ++ o.connEvents s c)) =
      notices (playStream x hist) ++ pkt.notice.toList := by
  rw [playStream, sent_deliveries hacc, hone, sinceLogin_concat, hg, playStream]
  exact notices_concat _ _

/-- Nothing about listings. -/
theorem told_silent (ho : o.Silent) :
    notices (playStream x (hist ++ o.connEvents s c)) = notices (playStream x hist) := by
  have hall : ∀ pkt ∈ packetsTo x (o.deliveries s), pkt.notice = none ∧ pkt.greets = false := by
    intro pkt hpkt
    obtain ⟨w, hw, hif⟩ := List.mem_filterMap.1 hpkt
    split_ifs at hif
    cases hif
    refine ho.2 w.2 ?_
    cases o with
    | packetSend sock pkt =>
      rw [List.mem_singleton.1 hw]
      rfl
    | broadcast pkt =>
      obtain ⟨sock, -, rfl⟩ := List.mem_map.1 hw
      rfl
    | unicastToKey k pkt =>
      obtain ⟨sock, -, rfl⟩ := Option.map_eq_some_iff.1 (Option.mem_toList.1 hw)
      rfl
    | _ => cases hw
  rw [playStream, sent_deliveries ho.1, playStream]
  generalize packetsTo x (o.deliveries s) = pkts at hall ⊢
  induction pkts using List.reverseRecOn with
  | nil => rw [List.append_nil]
  | append_singleton pkts pkt ih =>
    obtain ⟨hn, hg⟩ := hall pkt (List.mem_append_right _ List.mem_cons_self)
    rw [← List.append_assoc, sinceLogin_concat, hg, if_neg Bool.false_ne_true, notices_concat, hn,
      Option.toList_none, List.append_nil]
    exact ih fun pkt' hpkt' => hall pkt' (List.mem_append_left _ hpkt')

/-- A packet for others. -/
theorem told_others (hacc : o ≠ .accept) (hno : packetsTo x (o.deliveries s) = []) :
    notices (playStream x (hist ++ o.connEvents s c)) = notices (playStream x hist) := by
  rw [playStream, sent_deliveries hacc, hno, List.append_nil, playStream]

/-! ### What holds along a run -/

/-- The invariant of guarded runs. -/
structure Posted (q : Server × List ConnEvent) : Prop where
  connected : Connected q.1
  slotted : Slotted q.1
  started : .main .marketInit ∈ q.1.threads →
    q.1.threads = [.main .marketInit] ∧ activeIds q.1.shared.market = []
  length : q.1.shared.market.slots.length ≤ maxMarketSlots
  nodup : (activeIds q.1.shared.market).Nodup
  bought : ∀ u ∈ q.1.threads, u.Bought
  board : (bulletin q).Inv

theorem handles_of_playing (h : u.playing = some x) : u.handles = some x := by
  cases u with
  | login sock pc =>
    simp only [Thread.playing] at h
    split_ifs at h
    exact h
  | session sock key pc => exact h
  | _ => cases h

/-- A login is accepted by the packet that says so. -/
theorem playing_step (ha : th.action = some a) {r : a.op.Ret} (hr : a.op.exec s c = some (s', r))
    (h : (a.next r).playing = some x) : th.playing = some x ∨
      ∃ pkt, a.op = .packetSend x pkt ∧ pkt.greets = true := by
  have ho := thread_origin ha ⟨r, hr, rfl⟩
  generalize a.next r = th' at ho h
  cases th' with
  | login sock pc' =>
    obtain ⟨pc, rfl, hs⟩ := ho
    cases ha
    simp only [Thread.playing] at h
    split_ifs at h with hans
    cases h
    have hkeep : pc.answered = true → (Thread.login x pc).playing = some x := by
      intro hpc
      rw [Thread.playing, if_pos hpc]
    obtain ⟨r', -, hn⟩ := hs
    cases pc with
    | reply key rec goal => exact .inr ⟨_, rfl, rfl⟩
    | recv =>
      simp only [clientLogin] at hn
      split at hn <;> cases hn <;> cases hans
    | duplicate key =>
      simp only [clientLogin] at hn
      split_ifs at hn <;> cases hn <;> cases hans
    | lookup key =>
      simp only [clientLogin] at hn
      split at hn <;> (try split_ifs at hn) <;> cases hn <;> cases hans
    | append key rec | register key rec | mkdir key rec | goal key rec =>
      cases hn
      cases hans
    | refuse code reason => cases hn
    | _ => exact .inl (hkeep rfl)
  | session sock key pc' =>
    cases h
    rcases ho with ⟨pc, rfl, -⟩ | ⟨-, pc, rfl, hs⟩
    · exact .inl rfl
    · obtain rfl | ⟨mask, rfl⟩ := login_ret hs <;> exact .inl rfl
  | _ => cases h

theorem length_step {m m' : Market} (h : MarketStep m th m')
    (hlen : m.slots.length ≤ maxMarketSlots) : m'.slots.length ≤ maxMarketSlots := by
  have hupd : ∀ {f : MarketSlot → Bool} {g : MarketSlot → MarketSlot} {slot : MarketSlot}
      {slots : List MarketSlot}, updateFirst f g m.slots = some (slot, slots) →
      slots.length ≤ maxMarketSlots := by
    intro f g slot slots hu
    obtain ⟨i, -, rfl, -⟩ := updateFirst_eq_set hu
    rwa [List.length_set]
  cases h with
  | same h => rwa [h]
  | take d _ h =>
    subst h
    rcases marketTake_cases m d with ⟨e, he⟩ | ⟨slot, slots, hu, -, he⟩ <;> rw [he]
    · exact hlen
    · exact hupd hu
  | add doc _ now r h =>
    obtain ⟨slot, new, hu, -⟩ := marketAdd_eq_some h
    exact hupd hu
  | age now h | freeze tags _ h | unfreeze tags h =>
    subst h
    show (m.slots.map _).length ≤ _
    rwa [List.length_map]
  | init h =>
    subst h
    exact le_of_eq List.length_replicate

/-- The slot of a purchase is that of its document. -/
theorem bought_step (ha : th.action = some a) {r : a.op.Ret} (hr : a.op.exec s c = some (s', r))
    (h : th.Bought) : (a.next r).Bought := by
  have ho := thread_origin ha ⟨r, hr, rfl⟩
  generalize a.next r = th' at ho
  cases th' with
  | session sock key pc' =>
    cases pc' with
    | buy d q' =>
      rcases ho with ⟨pc, rfl, hs⟩ | ⟨hpc, -⟩
      · rcases session_origin hs with ⟨rfl, -⟩ | ⟨q, rfl, hq⟩
        · exact nofun
        · intro slot hslot
          obtain ⟨r', hr', hn⟩ := hq
          cases q with
          | find =>
            cases hr'
            simp only [handleBuy] at hn
            split at hn
            · cases hn
            · rename_i slot' hfind
              split_ifs at hn
              cases hn
              cases hslot
              have hlists := List.find?_some hfind
              simp only [MarketSlot.lists, Bool.and_eq_true, beq_iff_eq] at hlists
              exact hlists.2
          | take rec off =>
            cases hr'
            rcases marketTake_cases s.market d with ⟨e, he⟩ | ⟨slot', slots, hu, -, he⟩
            · simp only [handleBuy, he] at hn
              cases e <;> cases hn
            · simp only [handleBuy, he] at hn
              cases hn
              cases hslot
              have hlists := (mem_of_updateFirst hu).2
              simp only [MarketSlot.lists, Bool.and_eq_true, beq_iff_eq] at hlists
              exact hlists.2
          | count slot' | lookup slot' =>
            simp only [handleBuy] at hn
            split at hn <;> (try split_ifs at hn) <;> cases hn <;>
              first | exact h slot hslot | cases hslot
          | stat slot' rec off | move slot' rec off =>
            simp only [handleBuy] at hn
            split_ifs at hn <;> cases hn <;> exact h slot hslot
          | rollback slot' | announce => cases hn
          | charge slot' rec off =>
            cases hn
            exact h slot hslot
          | reply slot' rec =>
            cases hn
            cases hslot
      · cases hpc
    | _ => trivial
  | _ => trivial

/-! ### A step of the server as a step of the bulletin -/

theorem clerk_of_getElem? (hth : q.1.threads[t]? = some th) : (bulletin q).clerk t = th.clerk := by
  show (q.1.threads[t]?).elim {} Thread.clerk = _
  rw [hth]
  rfl

theorem clerk_of_none (hth : q.1.threads[t]? = none) : (bulletin q).clerk t = {} := by
  show (q.1.threads[t]?).elim {} Thread.clerk = _
  rw [hth]
  rfl

/-- What some clerk has in hand, some thread has in hand. -/
theorem exists_clerk {κ : Type} {f : Clerk ℤ ℕ → List κ} {z : κ} (hf : f {} = [])
    (h : (bulletin q).Has f z) :
    ∃ (t : ℕ) (u : Thread), q.1.threads[t]? = some u ∧ z ∈ f u.clerk := by
  obtain ⟨t, ht⟩ := h
  rcases hu : q.1.threads[t]? with _ | u
  · rw [clerk_of_none hu, hf] at ht
    cases ht
  · rw [clerk_of_getElem? hu] at ht
    exact ⟨t, u, hu, ht⟩

/-- A new thread has nothing in hand. -/
theorem clerk_spawned {r : o.Ret} (hu : u ∈ o.spawned r) : u.clerk = {} := by
  obtain ⟨n, rfl⟩ | ⟨sock, -, rfl⟩ := spawned_start hu
  · cases n <;> rfl
  · rfl

theorem clerk_step {r : o.Ret} (hth : q.1.threads[t]? = some th)
    (hthreads : q'.1.threads = q.1.threads.set t th' ++ o.spawned r) :
    (bulletin q').clerk = Function.update (bulletin q).clerk t th'.clerk := by
  funext j
  by_cases hj : j = t
  · subst hj
    rw [Function.update_self]
    refine clerk_of_getElem? ?_
    rw [hthreads]
    exact Pool.getElem?_step_self hth
  · rw [Function.update_of_ne hj]
    rcases hold : q.1.threads[j]? with _ | u
    · rw [clerk_of_none hold]
      rcases hnew : q'.1.threads[j]? with _ | u
      · exact clerk_of_none hnew
      · rw [clerk_of_getElem? hnew]
        rw [hthreads] at hnew
        rcases Pool.getElem?_step hnew with ⟨-, hu⟩ | ⟨hjt, -⟩ | hu
        · rw [hold] at hu
          cases hu
        · exact absurd hjt hj
        · exact clerk_spawned hu
    · rw [clerk_of_getElem? hold]
      refine clerk_of_getElem? ?_
      rw [hthreads]
      exact Pool.getElem?_step_of_ne hj hold

/-- Who is logged in after a step was before, or its login is accepted. -/
theorem listening_step (ha : th.action = some a) {r : a.op.Ret}
    (hr : a.op.exec q.1.shared c = some (s', r)) (hth : q.1.threads[t]? = some th)
    (hthreads : q'.1.threads = q.1.threads.set t (a.next r) ++ a.op.spawned r)
    (hx : x ∈ (bulletin q').listening) : x ∈ (bulletin q).listening ∨
      ∃ pkt, a.op = .packetSend x pkt ∧ pkt.greets = true := by
  obtain ⟨u, hu, hplay⟩ := hx
  rw [hthreads] at hu
  obtain ⟨j, hj⟩ := List.getElem?_of_mem hu
  rcases Pool.getElem?_step hj with ⟨-, hold⟩ | ⟨-, rfl⟩ | hnew
  · exact .inl ⟨u, List.mem_of_getElem? hold, hplay⟩
  · exact (playing_step ha hr hplay).imp_left fun h => ⟨th, List.mem_of_getElem? hth, h⟩
  · obtain ⟨n, rfl⟩ | ⟨sock, -, rfl⟩ := spawned_start hnew
    · cases n <;> cases hplay
    · cases hplay

/-- A step of the bulletin, after which some subscribers may have quit. -/
theorem board_of_step {B : Bulletin ℤ ℕ ℕ} (hI : (bulletin q).Inv) (hstep : (bulletin q).Step t B)
    (hused : (bulletin q').used = B.used) (hactive : (bulletin q').active = B.active)
    (hclerk : (bulletin q').clerk = B.clerk) (htold : (bulletin q').told = B.told)
    (hL : (bulletin q').listening ⊆ B.listening) : (bulletin q').Inv := by
  have heq : bulletin q' = { B with listening := (bulletin q').listening } :=
    Bulletin.ext hused hactive hclerk rfl htold
  rw [heq]
  exact (hI.step hstep).quit hL

/-- What every step of a thread does to the hands, to what was told and to who listens. -/
structure BoardRun (q q' : Server × List ConnEvent) (t : ℕ) (th th' : Thread) (o : Op)
    (c : Choice) :
    Prop where
  hand : (bulletin q).clerk t = th.clerk
  clerk : (bulletin q').clerk = Function.update (bulletin q).clerk t th'.clerk
  told : ∀ x, (bulletin q').told x = notices (playStream x (q.2 ++ o.connEvents q.1.shared c))
  listening : ∀ x ∈ (bulletin q').listening, x ∈ (bulletin q).listening ∨
    ∃ pkt, o = .packetSend x pkt ∧ pkt.greets = true

namespace BoardRun

variable {B : Bulletin ℤ ℕ ℕ}

/-- Unless a login is accepted, nobody begins to listen. -/
theorem listening_subset (h : BoardRun q q' t th th' o c)
    (hno : ∀ pkt ∈ o.packet, pkt.greets = false) :
    (bulletin q').listening ⊆ (bulletin q).listening := by
  intro x hx
  rcases h.listening x hx with hx | ⟨pkt, rfl, hg⟩
  · exact hx
  · rw [hno pkt rfl] at hg
    cases hg

/-- The hand did not change. -/
theorem clerk_same (h : BoardRun q q' t th th' o c) (heq : th'.clerk = th.clerk) :
    (bulletin q').clerk = (bulletin q).clerk := by
  rw [h.clerk, heq, ← h.hand, Function.update_eq_self]

/-- **A step that tells nobody anything.** -/
theorem inv_silent (h : BoardRun q q' t th th' o c) (hI : (bulletin q).Inv) (ho : o.Silent)
    (hstep : (bulletin q).Step t B) (hused : (bulletin q').used = B.used)
    (hactive : (bulletin q').active = B.active)
    (hclerk : B.clerk = Function.update (bulletin q).clerk t th'.clerk)
    (htold : B.told = (bulletin q).told) (hL : B.listening = (bulletin q).listening) :
    (bulletin q').Inv := by
  refine board_of_step hI hstep hused hactive (h.clerk.trans hclerk.symm) ?_ ?_
  · rw [htold]
    funext x
    rw [h.told x]
    exact told_silent ho
  · rw [hL]
    exact h.listening_subset fun pkt hpkt => (ho.2 pkt hpkt).2

/-- **A step that tells some connections of a listing.** -/
theorem inv_tell (h : BoardRun q q' t th th' o c) (hI : (bulletin q).Inv) {k : Clerk ℤ ℕ}
    {n : Notice ℤ} (hearers : Set ℕ) (hpkt : o.packet = some pkt) (hn : pkt.notice = some n)
    (hin : ∀ x ∈ hearers, packetsTo x (o.deliveries q.1.shared) = [pkt])
    (hout : ∀ x, x ∉ hearers → packetsTo x (o.deliveries q.1.shared) = [])
    (hs : q'.1.shared = q.1.shared) (hk : th'.clerk = k)
    (hstep : (bulletin q).Step t (((bulletin q).hand t k).tell hearers n)) : (bulletin q').Inv := by
  have hacc : o ≠ .accept := by
    rintro rfl
    cases hpkt
  have hg : pkt.greets = false := by
    cases pkt <;> first | rfl | cases hn
  refine board_of_step hI hstep ?_ ?_ (by rw [h.clerk, hk]; rfl) ?_ ?_
  · show {d | d ∈ seedIds ∨ d ≤ _} = {d | d ∈ seedIds ∨ d ≤ _}
    rw [hs]
  · show {d | d ∈ activeIds _} = {d | d ∈ activeIds _}
    rw [hs]
  · funext x
    rw [h.told x]
    simp only [Bulletin.tell]
    by_cases hx : x ∈ hearers
    · rw [if_pos hx, told_concat hacc (hin x hx) hg, hn]
      rfl
    · rw [if_neg hx, told_others hacc (hout x hx)]
      rfl
  · refine h.listening_subset fun pkt' hpkt' => ?_
    rw [hpkt] at hpkt'
    obtain rfl := Option.mem_some_iff.1 hpkt'
    exact hg

/-- A listing is put on the market. -/
theorem active_insert
    (hids : (activeIds q'.1.shared.market).Perm (d :: activeIds q.1.shared.market)) :
    (bulletin q').active = insert d (bulletin q).active := by
  ext e
  show e ∈ activeIds _ ↔ e = d ∨ e ∈ activeIds _
  rw [hids.mem_iff, List.mem_cons]

theorem active_same (hids : activeIds q'.1.shared.market = activeIds q.1.shared.market) :
    (bulletin q').active = (bulletin q).active := by
  show {d | d ∈ activeIds _} = {d | d ∈ activeIds _}
  rw [hids]

theorem used_same (hcount : q'.1.shared.docIdCounter = q.1.shared.docIdCounter) :
    (bulletin q').used = (bulletin q).used := by
  show {d | d ∈ seedIds ∨ d ≤ _} = {d | d ∈ seedIds ∨ d ≤ _}
  rw [hcount]

/-- **Listings change hands**: a step that changes the market or takes a snapshot, and tells nobody
anything. -/
theorem inv_items (h : BoardRun q q' t th th' o c) (hI : Posted q)
    (hfresh : o.store = some .docIds → q.1.shared.docIdCounter + 1 ∉ seedIds)
    (hsnap : th.clerk.greeting ≠ [] → ∀ d, (bulletin q).Announcing d → d ∉ (bulletin q).active)
    (hB : BoardStep q.1.shared th o q'.1.shared th') (ho : o.Silent) : (bulletin q').Inv := by
  have hhand := h.hand
  cases hB with
  | quiet hids hcount hhand' ho =>
    exact h.inv_silent hI.board ho (.quit (t := t) _ (Set.Subset.refl _)) (used_same hcount)
      (active_same hids) (h.clerk_same hhand' ▸ h.clerk) rfl rfl
  | accept hm hcount hhand' hacc => exact absurd hacc ho.1
  | allot hids hop hcount hhand' =>
    -- seeds apart, no id in use lies beyond the counter, and the next id is no seed
    have hnew : q.1.shared.docIdCounter + 1 ∉ (bulletin q).used := by
      rintro (hmem | hle)
      · exact hfresh (by rw [hop]; rfl) hmem
      · omega
    refine h.inv_silent hI.board ho (.allot (t := t) _ hnew) ?_ (active_same hids) ?_ rfl rfl
    · ext e
      show e ∈ seedIds ∨ e ≤ _ ↔ e = _ ∨ e ∈ seedIds ∨ e ≤ _
      rw [hcount, or_left_comm]
      refine or_congr_right ?_
      omega
    · rw [hhand', ← hhand]
      rfl
  | drop ids hids hcount hsub hhand' =>
    refine h.inv_silent hI.board ho (.drop (t := t) ids ?_) (used_same hcount) (active_same hids)
      ?_ rfl rfl
    · rw [hhand]
      exact hsub
    · rw [hhand', ← hhand]
      rfl
  | place d ids hids hcount hmaking hhand' =>
    refine h.inv_silent hI.board ho (.place (t := t) d ids ?_) (used_same hcount)
      (active_insert hids) ?_ rfl rfl
    · rw [hhand]
      exact hmaking
    · rw [hhand', ← hhand]
      rfl
  | list d ids hids hcount hmaking hhand' =>
    refine h.inv_silent hI.board ho (.list (t := t) d ids ?_) (used_same hcount)
      (active_insert hids) ?_ rfl rfl
    · rw [hhand]
      exact hmaking
    · rw [hhand', ← hhand]
      rfl
  | take ids hids hcount hhand' =>
    have hnd := List.nodup_append.1 (hids.nodup_iff.1 hI.nodup)
    have hin : ∀ d ∈ ids, d ∈ (bulletin q).active :=
      fun d hd => hids.mem_iff.2 (List.mem_append_left _ hd)
    refine h.inv_silent hI.board ho (.take (t := t) ids hnd.1 hin) (used_same hcount) ?_ ?_ rfl rfl
    · ext e
      show e ∈ activeIds _ ↔ e ∈ activeIds _ ∧ e ∉ ids
      rw [hids.mem_iff, List.mem_append]
      constructor
      · exact fun he => ⟨.inr he, fun hmem => hnd.2.2 e hmem e he rfl⟩
      · rintro ⟨he, hno⟩
        exact he.resolve_left hno
    · rw [hhand', ← hhand]
      rfl
  | relist d ids hids hcount hremoving hhand' =>
    refine h.inv_silent hI.board ho (.relist (t := t) d ids ?_) (used_same hcount)
      (active_insert hids) ?_ rfl rfl
    · rw [hhand]
      exact hremoving
    · rw [hhand', ← hhand]
      rfl
  | announce pkt d ids hs hop hn | retract pkt d ids hs hop hn =>
    have hnone := (ho.2 pkt (by rw [hop]; rfl)).1
    rw [hn] at hnone
    cases hnone
  | greet sock pkt hs hop hg =>
    have hfalse := (ho.2 pkt (by rw [hop]; rfl)).2
    rw [hg] at hfalse
    cases hfalse
  | snapshot sock socks hs hop hgreeting hhand' =>
    refine h.inv_silent hI.board ho (.snapshot (t := t) sock socks (activeIds q.1.shared.market) ?_
      hI.nodup fun d hd => ⟨hd, fun hann => ?_⟩) (used_same (by rw [hs]))
      (active_same (by rw [hs])) ?_ rfl rfl
    · rw [hhand]
      exact hgreeting
    · refine hsnap ?_ d hann hd
      rw [hgreeting]
      exact List.cons_ne_nil _ _
    · rw [hhand', ← hhand]
      rfl
  | send sock pkt d todo hs hop hn =>
    have hnone := (ho.2 pkt (by rw [hop]; rfl)).1
    rw [hn] at hnone
    cases hnone

/-- What the operation does with the descriptors, when it writes no packet. -/
theorem inv_accept (h : BoardRun q q' t th th' o c) (hI : (bulletin q).Inv)
    (hm : q'.1.shared.market = q.1.shared.market)
    (hcount : q'.1.shared.docIdCounter = q.1.shared.docIdCounter)
    (hhand : th'.clerk = th.clerk) (ho : o = .accept) : (bulletin q').Inv := by
  subst ho
  refine board_of_step hI (.restart (t := t) c.fd) (used_same hcount)
    (active_same (by rw [hm])) (h.clerk_same hhand) ?_ (h.listening_subset nofun)
  funext x
  rw [h.told x]
  simp only [Bulletin.restart]
  by_cases hx : x = c.fd
  · subst hx
    rw [if_pos rfl, playStream, Op.connEvents, sent_accepted]
    rfl
  · have hne : ∀ e ∈ Op.accept.connEvents q.1.shared c, e.fd ≠ x := by
      intro e he
      rw [List.mem_singleton.1 he]
      exact Ne.symm hx
    rw [if_neg hx, playStream, sent_append_of_ne hne]
    rfl

/-- **A login is accepted.** -/
theorem inv_greet (h : BoardRun q q' t th th' o c) (hI : (bulletin q).Inv)
    (hg : ¬ (bulletin q).Greeting sock) (hp : ∀ d, ¬ (bulletin q).Pending sock d)
    (hs : q'.1.shared = q.1.shared) (ho : o = .packetSend sock pkt) (hpkt : pkt.greets = true)
    (hhand : th'.clerk = { th.clerk with greeting := sock :: th.clerk.greeting }) :
    (bulletin q').Inv := by
  subst ho
  have hacc : Op.packetSend sock pkt ≠ .accept := nofun
  refine board_of_step hI (.greet (t := t) sock hg hp) (used_same (by rw [hs]))
    (active_same (by rw [hs])) ?_ ?_ ?_
  · rw [h.clerk, hhand, ← h.hand]
    rfl
  · funext x
    rw [h.told x]
    simp only [Bulletin.restart]
    by_cases hx : x = sock
    · subst hx
      rw [if_pos rfl, playStream, sent_deliveries hacc, packetsTo_send, if_pos rfl,
        sinceLogin_concat, hpkt]
      rfl
    · rw [if_neg hx, told_others hacc (by rw [packetsTo_send, if_neg hx])]
      rfl
  · intro x hx
    rcases h.listening x hx with hx | ⟨pkt', hop, -⟩
    · exact .inr hx
    · cases hop
      exact .inl rfl

end BoardRun

/-! ### Connections in hand -/

theorem fd_of_greeting (h : x ∈ u.clerk.greeting) : u.fd = some x := by
  cases u with
  | login sock pc =>
    cases pc with
    | marketSnapshot key =>
      rw [List.mem_singleton.1 h]
      rfl
    | _ => cases h
  | main pc => cases pc <;> cases h
  | session sock key pc => cases pc <;> cases h
  | event v pc => cases pc <;> cases h
  | _ => cases h

theorem fd_of_sending (h : (x, d) ∈ u.clerk.sending) : u.fd = some x := by
  cases u with
  | login sock pc =>
    cases pc with
    | marketSend key slot todo =>
      obtain ⟨e, -, heq⟩ := List.mem_map.1 h
      cases heq
      rfl
    | _ => cases h
  | main pc => cases pc <;> cases h
  | session sock key pc => cases pc <;> cases h
  | event v pc => cases pc <;> cases h
  | _ => cases h

/-- Whoever is logged in has a slot. -/
theorem listening_slotted (h : Slotted q.1) :
    (bulletin q).listening ⊆ {x | x ∈ clientSockets q.1.shared.clients} := by
  rintro x ⟨u, hu, hplay⟩
  exact h u hu x (handles_of_playing hplay)

/-- Nobody else has the connection of a thread in hand. -/
theorem not_has_of_fd {κ : Type} {f : Clerk ℤ ℕ → List κ} {z : κ} (hf : f {} = [])
    (hC : Connected q.1) (hth : q.1.threads[t]? = some th) (hfd : th.fd = some x)
    (hidle : th.clerk = {}) (hown : ∀ u : Thread, z ∈ f u.clerk → u.fd = some x) :
    ¬ (bulletin q).Has f z := by
  intro h
  obtain ⟨j, u, hj, hmem⟩ := exists_clerk hf h
  obtain rfl := hC.fds j t u th x hj hth (hown u hmem) hfd
  rw [hth] at hj
  cases hj
  rw [hidle, hf] at hmem
  cases hmem

theorem announces_of_notice (hn : pkt.notice = some (.shown d)) :
    d ∈ (Op.broadcast pkt).announces := by
  cases pkt <;> cases hn
  rfl

theorem retracts_of_notice (hn : pkt.notice = some (.removed d)) :
    d ∈ (Op.broadcast pkt).retracts := by
  cases pkt <;> cases hn
  rfl

/-! ### The step of the server -/

/-- What a step does to the hands, to what was told and to who listens. -/
theorem boardRun_step (ha : th.action = some a) {r : a.op.Ret}
    (hr : a.op.exec q.1.shared c = some (s', r)) (hth : q.1.threads[t]? = some th)
    (hthreads : q'.1.threads = q.1.threads.set t (a.next r) ++ a.op.spawned r)
    (hhist : q'.2 = q.2 ++ a.op.connEvents q.1.shared c) :
    BoardRun q q' t th (a.next r) a.op c where
  hand := clerk_of_getElem? hth
  clerk := clerk_step hth hthreads
  told x := by rw [← hhist]; rfl
  listening _ hx := listening_step ha hr hth hthreads hx

/-- **A guarded step of a thread keeps the bulletin in order.** -/
theorem board_run (hI : Posted q) (hG : BoardGuard q.1 (.run t c))
    (hth : q.1.threads[t]? = some th) (ha : th.action = some a) {r : a.op.Ret}
    (hB : BoardStep q.1.shared th a.op q'.1.shared (a.next r))
    (h : BoardRun q q' t th (a.next r) a.op c) : (bulletin q').Inv := by
  have hat : threadAt q.1 (.run t c) = some th := hth
  have hop := opAt_run (c := c) hth ha
  have hitems : a.op.Silent → (bulletin q').Inv := by
    refine h.inv_items hI (hG.fresh a.op hop) (fun hwait d hann hact => ?_) hB
    obtain ⟨j, u, hu, hd⟩ := exists_clerk rfl hann
    exact hG.snapshot th hat hwait u (List.mem_of_getElem? hu) d hd hact
  have hL := listening_slotted hI.slotted
  cases hB with
  | quiet _ _ _ ho | drop _ _ _ _ _ ho | place _ _ _ _ _ _ ho | list _ _ _ _ _ _ ho
  | take _ _ _ _ ho | relist _ _ _ _ _ _ ho => exact hitems ho
  | allot _ ho _ _ => exact hitems (by rw [ho]; exact silent_of_none nofun rfl)
  | snapshot _ _ _ ho _ _ => exact hitems (by rw [ho]; exact silent_of_none nofun rfl)
  | accept hm hcount hclerk ho => exact h.inv_accept hI.board hm hcount hclerk ho
  | announce pkt d ids hs ho hn hann hclerk =>
    rw [ho] at hop
    refine h.inv_tell hI.board {x | x ∈ clientSockets q.1.shared.clients} (by rw [ho]; rfl) hn
      (fun x hx => ?_) (fun x hx => ?_) hs hclerk ?_
    · rw [ho, packetsTo_broadcast hI.connected.nodup]
      exact if_pos hx
    · rw [ho, packetsTo_broadcast hI.connected.nodup]
      exact if_neg hx
    rw [← h.hand] at hann ⊢
    refine .announce d ids _ hann hL fun x hx => ?_
    obtain ⟨j, u, hu, hmem⟩ := exists_clerk rfl hx
    rw [hG.announce _ hop d (announces_of_notice hn) u (List.mem_of_getElem? hu)] at hmem
    cases hmem
  | retract pkt d ids hs ho hn hrem hclerk =>
    rw [ho] at hop
    refine h.inv_tell hI.board {x | x ∈ clientSockets q.1.shared.clients} (by rw [ho]; rfl) hn
      (fun x hx => ?_) (fun x hx => ?_) hs hclerk ?_
    · rw [ho, packetsTo_broadcast hI.connected.nodup]
      exact if_pos hx
    · rw [ho, packetsTo_broadcast hI.connected.nodup]
      exact if_neg hx
    have hG := hG.retract _ hop d (retracts_of_notice hn)
    rw [← h.hand] at hrem ⊢
    refine .retract d ids _ hrem hL (fun hann => ?_) fun x hx => ?_
    · obtain ⟨j, u, hu, hmem⟩ := exists_clerk rfl hann
      exact (hG u (List.mem_of_getElem? hu)).1 hmem
    · obtain ⟨j, u, hu, hmem⟩ := exists_clerk rfl hx
      exact (hG u (List.mem_of_getElem? hu)).2 _ hmem rfl
  | greet sock pkt hs ho hg hidle hclerk =>
    have hfd : th.fd = some sock := op_sock ha (by rw [ho]; rfl)
    refine h.inv_greet hI.board ?_ (fun d => ?_) hs ho hg hclerk
    · exact not_has_of_fd rfl hI.connected hth hfd hidle fun u hu => fd_of_greeting hu
    · exact not_has_of_fd rfl hI.connected hth hfd hidle fun u hu => fd_of_sending hu
  | send sock pkt d todo hs ho hn hsend hclerk =>
    refine h.inv_tell hI.board {sock} (by rw [ho]; rfl) hn (fun x hx => ?_) (fun x hx => ?_) hs
      hclerk ?_
    · rw [ho, packetsTo_send]
      exact if_pos hx
    · rw [ho, packetsTo_send]
      exact if_neg hx
    rw [← h.hand] at hsend ⊢
    exact .send sock d todo hsend

/-- No listing is put on the market twice. -/
theorem nodup_step (hI : Posted q) (hth : q.1.threads[t]? = some th)
    (hB : BoardStep q.1.shared th o s' th') : (activeIds s'.market).Nodup := by
  have hhand := clerk_of_getElem? hth
  have hput : ∀ {d : ℤ}, (activeIds s'.market).Perm (d :: activeIds q.1.shared.market) →
      d ∈ th.clerk.holds → (activeIds s'.market).Nodup := by
    intro d hids hd
    refine hids.nodup_iff.2 (List.nodup_cons.2 ⟨fun hact => ?_, hI.nodup⟩)
    exact hI.board.apart d hact t (hhand ▸ hd)
  cases hB with
  | quiet hids _ _ _ | allot hids _ _ _ | drop _ hids _ _ _ _ =>
    rw [hids]
    exact hI.nodup
  | accept hm _ _ _ =>
    rw [hm]
    exact hI.nodup
  | place d ids hids _ hmaking _ _ | list d ids hids _ hmaking _ _ =>
    refine hput hids (Bulletin.mem_holds.2 (.inl ?_))
    rw [hmaking]
    exact List.mem_cons_self
  | relist d ids hids _ hremoving _ _ =>
    refine hput hids (Bulletin.mem_holds.2 (.inr ?_))
    rw [hremoving]
    exact List.mem_cons_self
  | take ids hids _ _ _ => exact (List.nodup_append.1 (hids.nodup_iff.1 hI.nodup)).2.1
  | announce _ _ _ hs | retract _ _ _ hs | greet _ _ hs | snapshot _ _ hs | send _ _ _ _ hs =>
    rw [hs]
    exact hI.nodup

/-- Nobody goes back to the start. -/
theorem not_marketInit (ha : th.action = some a) {r : a.op.Ret}
    (hr : a.op.exec s c = some (s', r)) : a.next r ≠ .main .marketInit := by
  intro h
  have ho := thread_origin ha ⟨r, hr, rfl⟩
  rw [h] at ho
  obtain ⟨pc, rfl, r', -, hn⟩ := ho
  cases pc with
  | seed q =>
    simp only [mainThread, Action.map] at hn
    split at hn <;> cases hn
  | startEvents | add sock =>
    simp only [mainThread] at hn
    split_ifs at hn <;> cases hn
  | _ => cases hn

/-- **A guarded step keeps everything in order.** -/
theorem posted_step (hI : Posted q) (hG : BoardGuard q.1 l)
    (hn : streamServer.next q l = some q') : Posted q' := by
  obtain ⟨hn, hhist⟩ := System.withHistory_next.1 hn
  have hC := connected_step hI.connected hn
  have hS := slotted_step hI.connected hI.slotted hn
  cases l with
  | env seconds =>
    have hq : q'.1.shared = { q.1.shared with clock := q.1.shared.clock + seconds } ∧
        q'.1.threads = q.1.threads := by
      rw [Pool.next_env.1 hn]
      exact ⟨rfl, rfl⟩
    have hhist : q'.2 = q.2 := hhist.trans (List.append_nil _)
    have hB : bulletin q' = bulletin q := by
      simp only [bulletin, hq.1, hq.2, hhist]
    refine ⟨hC, hS, ?_, ?_, ?_, ?_, hB ▸ hI.board⟩
    · rw [hq.1, hq.2]
      exact hI.started
    · rw [hq.1]
      exact hI.length
    · rw [hq.1]
      exact hI.nodup
    · rw [hq.2]
      exact hI.bought
  | run t c =>
    obtain ⟨th, a, r, hth, ha, hr, hthreads⟩ := server_run hn
    have hmem : th ∈ q.1.threads := List.mem_of_getElem? hth
    have hat : threadAt q.1 (.run t c) = some th := hth
    have hhist : q'.2 = q.2 ++ a.op.connEvents q.1.shared c := by
      rw [hhist, connEventsAt, opAt_run hth ha]
      rfl
    have hB : BoardStep q.1.shared th a.op q'.1.shared (a.next r) := by
      refine board_step ha hr (fun hstart => ?_) hI.length (hG.room th hat) (hG.noReset th hat)
        (hI.bought th hmem)
      exact (hI.started (hstart ▸ hmem)).2
    have hmarket := market_step ha ⟨r, hr, rfl⟩
    refine ⟨hC, hS, fun hinit => ?_, length_step hmarket hI.length, nodup_step hI hth hB,
      fun u hu => ?_, board_run hI hG hth ha hB (boardRun_step ha hr hth hthreads hhist)⟩
    · rw [hthreads] at hinit
      obtain ⟨j, hj⟩ := List.getElem?_of_mem hinit
      rcases Pool.getElem?_step hj with ⟨hne, hj⟩ | ⟨-, hnext⟩ | hnew
      · -- there was no other thread
        have hone := (hI.started (List.mem_of_getElem? hj)).1
        rw [hone] at hj hth
        obtain ⟨hj0, -⟩ := List.getElem?_eq_some_iff.1 hj
        obtain ⟨ht0, -⟩ := List.getElem?_eq_some_iff.1 hth
        simp only [List.length_singleton] at hj0 ht0
        omega
      · exact absurd hnext.symm (not_marketInit ha hr)
      · obtain ⟨n, hn⟩ | ⟨sock, -, hn⟩ := spawned_start hnew
        · cases n <;> cases hn
        · cases hn
    · rw [hthreads] at hu
      obtain ⟨j, hj⟩ := List.getElem?_of_mem hu
      rcases Pool.getElem?_step hj with ⟨-, hj⟩ | ⟨-, rfl⟩ | hnew
      · exact hI.bought u (List.mem_of_getElem? hj)
      · exact bought_step ha hr (hI.bought th hmem)
      · obtain ⟨n, rfl⟩ | ⟨sock, -, rfl⟩ := spawned_start hnew
        · cases n <;> trivial
        · trivial

theorem posted_boot (cwd : Dir) (files : Files) (users : UserDb) (clock : ℕ) :
    Posted (boot cwd files users clock, []) := by
  -- at boot only the main thread has something in hand: the seeds
  have hclerk : ∀ t, (bulletin (boot cwd files users clock, [])).clerk t =
      if t = 0 then { making := seedIds } else {} := by
    intro t
    rcases t with _ | t <;> rfl
  have hhas : ∀ {κ : Type} {f : Clerk ℤ ℕ → List κ} {z : κ}, f {} = [] →
      f { making := seedIds } = [] → ¬ (bulletin (boot cwd files users clock, [])).Has f z := by
    rintro κ f z hf hf' ⟨t, ht⟩
    rw [hclerk] at ht
    split_ifs at ht
    · rw [hf'] at ht
      cases ht
    · rw [hf] at ht
      cases ht
  have hexcl : ∀ {κ : Type} {f : Clerk ℤ ℕ → List κ}, f {} = [] →
      (f { making := seedIds }).Nodup →
      Exclusive fun t => f ((bulletin (boot cwd files users clock, [])).clerk t) := by
    intro κ f hf hnd
    refine ⟨fun t => ?_, fun t u x ht hu => ?_⟩
    · rw [hclerk]
      split_ifs
      · exact hnd
      · rw [hf]
        exact List.nodup_nil
    · rw [hclerk] at ht hu
      split_ifs at ht hu with h₁ h₂ h₂
      · exact h₁.trans h₂.symm
      · rw [hf] at hu
        cases hu
      · rw [hf] at ht
        cases ht
      · rw [hf] at ht
        cases ht
  have hstands : ∀ d, ¬ (bulletin (boot cwd files users clock, [])).Stands d := by
    rintro d (hact | hrem)
    · cases hact
    · exact hhas rfl rfl hrem
  exact
    { connected := connected_boot cwd files users clock
      slotted := fun u hu x hx => by
        obtain rfl := List.mem_singleton.1 hu
        cases hx
      started := fun _ => ⟨rfl, rfl⟩
      length := Nat.zero_le _
      nodup := List.nodup_nil
      bought := fun u hu => by
        obtain rfl := List.mem_singleton.1 hu
        trivial
      board :=
        { held := hexcl rfl (by decide)
          news := hexcl rfl List.nodup_nil
          greeters := hexcl rfl List.nodup_nil
          lines := hexcl rfl List.nodup_nil
          apart := fun d hd => absurd hd List.not_mem_nil
          used := fun d hd => by
            rcases hd with ⟨t, ht⟩ | hs | ⟨x, n, hn, -⟩
            · rw [hclerk] at ht
              split_ifs at ht
              · exact .inl ht
              · cases ht
            · exact absurd hs (hstands d)
            · cases hn
          unlisted := fun d _ x n hn => absurd hn List.not_mem_nil
          standing := fun d hs => absurd hs (hstands d)
          announcing := fun d hd => absurd hd (hhas rfl rfl)
          pending := fun x d hd => absurd hd (hhas rfl rfl)
          greeting := fun x hx => absurd hx (hhas rfl rfl)
          orderly := fun x => orderly_nil
          alive := fun x _ d hs => absurd hs List.not_mem_nil } }

/-! ### Every listing is announced -/

/-- **Each listing is announced once, and before its removal**, in guarded runs; what is shown then
is on the market. -/
theorem announced_of_guard {cwd : Dir} {files : Files} {users : UserDb} {clock : ℕ}
    (hq : streamServer.Reach (fun q l => BoardGuard q.1 l) (boot cwd files users clock, []) q) :
    Announced q.1 q.2 := by
  have hI : Posted q := hq.invariant (posted_boot cwd files users clock)
    fun q l q' _ hI hG hn => posted_step hI hG hn
  refine ⟨fun u _ x _ => hI.board.orderly x, fun hidle u hu x hplay money goal hmode d hd => ?_⟩
  have hF := follows_run money goal (hI.board.orderly x) hmode
  refine hI.board.current ⟨u, hu, hplay⟩ (fun t => ?_) (hF.shown d hd) (hF.kept d hd)
  rcases hv : q.1.threads[t]? with _ | v
  · rw [clerk_of_none hv]
  · rw [clerk_of_getElem? hv, hidle v (List.mem_of_getElem? hv)]

/-- The event thread makes document 1, up to the point where it is put on the market. -/
def makingScript : List Label :=
  steps 1 3 ++ .env evtTickSec :: steps 1 7 ++ .run 1 { rand := [1] } :: steps 1 1 ++
    .run 1 { rand := [2] } :: steps 1 2

/-- Document 1 is listed and announced to Alice, who buys it. -/
def announcedScript : List Label :=
  startUp ++ connect 5 ++ logIn 2 (Key.ofBytes (utf8 "alice")) ++ makingScript ++ steps 1 2 ++
    receive 2 (.buy 1) :: steps 2 11

/-- A guarded run in which Alice is told of a listing, and of its removal. -/
theorem announced_alice : ∃ q,
    streamServer.Reach (fun q l => BoardGuard q.1 l) (freshBoot, []) q ∧
    .removed 1 ∈ notices (playStream 5 q.2) ∧ Announced q.1 q.2 := by
  obtain ⟨q, hq, hf⟩ := streamServer.exists_reach_of_any (fun q l => BoardGuard q.1 l)
    (freshBoot, []) announcedScript
    (fun q => decide (.removed 1 ∈ notices (playStream 5 q.2))) (by decide +kernel)
  exact ⟨q, hq, of_decide_eq_true hf, announced_of_guard hq⟩

/-- Alice logs in between the listing of document 1 and its announcement. -/
def snapshotScript : List Label :=
  startUp ++ connect 5 ++ makingScript ++ steps 1 1 ++
    receive 2 (.login (Key.ofBytes (utf8 "alice"))) :: steps 2 16 ++ steps 1 1

/-- Without the guard a listing is shown to Alice twice. -/
theorem not_announced : ∃ q, streamServer.Reach System.anyStep (freshBoot, []) q ∧
    ¬ Announced q.1 q.2 := by
  obtain ⟨q, hq, hf⟩ := streamServer.exists_reach_of_any System.anyStep (freshBoot, [])
    snapshotScript (fun q => (q.1.threads.any fun u => u.playing == some 5) &&
      notices (playStream 5 q.2) == [124, 111, 47, 70, 1, 1].map .shown) (by decide +kernel)
  obtain ⟨hplays, htold⟩ := Bool.and_eq_true_iff.1 hf
  obtain ⟨u, hu, hplay⟩ := List.any_eq_true.1 hplays
  refine ⟨q, hq, fun h => ?_⟩
  have ho := h.orderly u hu 5 (eq_of_beq hplay)
  rw [eq_of_beq htold] at ho
  exact ho ([124, 111, 47, 70, 1].map .shown) (.shown 1) [] rfl 1 rfl (.shown 1) (by simp) rfl

end UnderFlow
