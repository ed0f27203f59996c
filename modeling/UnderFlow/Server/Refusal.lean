import UnderFlow.Server.Listings

/-!
# Purchases that are refused

What a call of `handle_buy` has done when it answers with an error, in any run of the server:
nothing, or it took the listing and put it up again.

* `buyServer` : the server with a record of what the calls do.
* `LeftAlone` : the effect of a call is nil.
* `BuyRight` : what a call has done so far.
* `refusalsNil_of_guard` : every refusal leaves everything as it was, as long as each rollback finds
  a free slot, in the second of the listing, and draws its lifespan again.
-/

namespace UnderFlow

/-! ### What the calls do -/

/-- What is recorded of the calls of `handle_buy`, by the threads that make them. -/
inductive BuyEvent where
  | request (t : ℕ)
  | step (t : ℕ) (before after : Shared)
  | refused (t : ℕ) (docId : ℤ)

/-- The record of one action. -/
def Thread.buyEvents (t : ℕ) (s : Shared) (c : Choice) : Thread → List BuyEvent
  | .session _ _ .recv => [.request t]
  | .session sock key (.buy docId pc) =>
    match (handleBuy sock key docId pc).op.exec s c with
    | none => []
    | some (s', r) => .step t s s' ::
      match (handleBuy sock key docId pc).next r with
      | .fail _ _ => [.refused t docId]
      | _ => []
  | _ => []

/-- What a step adds to the history. -/
def buyEventsAt (p : Server) : Label → List BuyEvent
  | .run t c => (p.threads[t]?.map (Thread.buyEvents t p.shared c)).getD []
  | .env _ => []

/-- **The server** with a record of what the calls do. -/
def buyServer : System (Server × List BuyEvent) Label := server.withHistory buyEventsAt

/-- An operation of a call. -/
structure BuyStep where
  /-- The state before it. -/
  before : Shared
  /-- The state after it. -/
  after : Shared

/-- One more event in the record of a thread; a request begins it anew. -/
def callStep (t : ℕ) (sts : List BuyStep) : BuyEvent → List BuyStep
  | .request u => if u = t then [] else sts
  | .step u before after => if u = t then sts ++ [⟨before, after⟩] else sts
  | .refused _ _ => sts

/-- The operations of the last call of a thread. -/
def callSteps (t : ℕ) (hist : List BuyEvent) : List BuyStep := hist.foldl (callStep t) []

/-! ### Refused purchases -/

/-- No record and no document is changed. -/
def BuyStep.Frugal (st : BuyStep) : Prop :=
  st.after.users = st.before.users ∧ st.after.files = st.before.files

/-- Neither is the market. -/
def BuyStep.Quiet (st : BuyStep) : Prop := st.Frugal ∧ st.after.market = st.before.market

/-- The listing is taken off the market. -/
def BuyStep.Takes (docId : ℤ) (slot : MarketSlot) (st : BuyStep) : Prop :=
  st.Frugal ∧ marketTake st.before.market docId = (.ok slot, st.after.market)

/-- The same listing: id, tags, price, name, and how long it stays. -/
def MarketSlot.SameListing (slot new : MarketSlot) : Prop :=
  new.docId = slot.docId ∧ new.tags = slot.tags ∧ new.basePrice = slot.basePrice ∧
    new.name = slot.name ∧ new.spawnTime = slot.spawnTime ∧ new.lifespanSec = slot.lifespanSec

/-- A free slot is filled with the listing, and nothing else is changed. -/
def BuyStep.Relists (slot : MarketSlot) (st : BuyStep) : Prop :=
  st.Frugal ∧ ∃ i free new, st.before.market.slots[i]? = some free ∧ free.active = false ∧
    new.active = true ∧ slot.SameListing new ∧
    st.after.market = { st.before.market with slots := st.before.market.slots.set i new }

/-- The operations took the listing, and did nothing else. -/
def Took (docId : ℤ) (slot : MarketSlot) (sts : List BuyStep) : Prop :=
  ∃ pre taken mid, sts = pre ++ taken :: mid ∧ taken.Takes docId slot ∧ ∀ st ∈ pre ++ mid, st.Quiet

/-- **The effect of a call is nil**: it did nothing, or it put up again what it took. -/
def LeftAlone (docId : ℤ) (sts : List BuyStep) : Prop :=
  (∀ st ∈ sts, st.Quiet) ∨
    ∃ slot took back, sts = took ++ [back] ∧ Took docId slot took ∧ back.Relists slot

/-- **A refused purchase** has left everything alone. -/
def RefusalNil (before : List BuyEvent) : BuyEvent → Prop
  | .refused t docId => LeftAlone docId (callSteps t before)
  | _ => True

/-- Every refused call has left everything as it was. -/
def RefusalsNil (hist : List BuyEvent) : Prop := Along RefusalNil hist

/-! ### The guard -/

/-- The listing the next action of a thread puts up again. -/
def Thread.rollback : Thread → Option MarketSlot
  | .session _ _ (.buy _ (.rollback slot)) => some slot
  | _ => none

/-- The lifespan `market_add` draws. -/
def drawnLifespan (c : Choice) : ℕ :=
  marketLifeMinSec + c.rand.getD 0 0 % (marketLifeMaxSec - marketLifeMinSec + 1)

/-- A rollback finds a free slot, in the second of the listing, and draws its lifespan. -/
def RollbackGuard (p : Server) (l : Label) : Prop :=
  ∀ slot ∈ (threadAt p l).bind Thread.rollback, marketIsFull p.shared.market = false ∧
    p.shared.clock = slot.spawnTime ∧ drawnLifespan (choiceOf l) = slot.lifespanSec

instance (p : Server) (l : Label) : Decidable (RollbackGuard p l) := by
  unfold RollbackGuard
  infer_instance

variable {s s' : Shared} {c : Choice} {th th' : Thread} {a : Action Thread} {sock : ℕ} {key : Key}
  {t u : ℕ} {docId : ℤ} {slot : MarketSlot} {sts : List BuyStep} {hist ev : List BuyEvent}
  {m m' : Market}

/-! ### Names of listings -/

theorem cstr_cstr (n : ℕ) (b : Bytes) : cstr n (cstr n b) = cstr n b := by
  have hall : ∀ x ∈ (b.takeWhile (· ≠ 0)).take (n - 1), decide (x ≠ 0) = true := by
    intro x hx
    have hmem := List.mem_of_mem_take hx
    exact List.mem_takeWhile_imp (p := fun y : UInt8 => decide (y ≠ 0)) hmem
  rw [cstr, cstr, List.takeWhile_eq_self_iff.2 hall, List.take_take, Nat.min_self]

/-- The names of the slots have been copied into their buffers. -/
def Named (m : Market) : Prop := ∀ slot ∈ m.slots, cstr maxNameLen slot.name = slot.name

theorem named_step (h : Named m) (hstep : MarketStep m th m') : Named m' := by
  intro slot' hslot'
  rcases slot_step hstep hslot' with ⟨slot, hslot, hsame⟩ | ⟨doc, -, hshow⟩ | rfl
  · rw [hsame.2.2.2.1]
    exact h slot hslot
  · rw [hshow.2.2.2]
    exact cstr_cstr _ _
  · rfl

/-! ### The record of a thread -/

theorem callSteps_append (t : ℕ) (hist ev : List BuyEvent) :
    callSteps t (hist ++ ev) = ev.foldl (callStep t) (callSteps t hist) := List.foldl_append

/-- What another thread does is not recorded here. -/
theorem callSteps_other (hne : u ≠ t) (th : Thread) :
    callSteps t (hist ++ th.buyEvents u s c) = callSteps t hist := by
  rw [callSteps_append]
  unfold Thread.buyEvents
  split
  · exact if_neg hne
  · split
    · rfl
    · split
      · simp [callStep, hne]
      · simp [callStep, hne]
  · rfl

theorem quiet_concat {st : BuyStep} (h : ∀ st ∈ sts, st.Quiet) (hst : st.Quiet) :
    ∀ st' ∈ sts ++ [st], st'.Quiet := by
  intro st' hmem
  rcases List.mem_append.1 hmem with hmem | hmem
  · exact h st' hmem
  · rw [List.mem_singleton.1 hmem]
    exact hst

theorem Took.concat {st : BuyStep} (h : Took docId slot sts) (hst : st.Quiet) :
    Took docId slot (sts ++ [st]) := by
  obtain ⟨pre, taken, mid, rfl, htakes, hquiet⟩ := h
  refine ⟨pre, taken, mid ++ [st], by simp, htakes, ?_⟩
  rw [← List.append_assoc]
  exact quiet_concat hquiet hst

/-! ### One call -/

/-- What a call has done so far. -/
def Thread.BuyRight (sts : List BuyStep) : Thread → Prop
  | .session _ _ (.buy docId pc) =>
    match pc with
    | .find | .count _ | .lookup _ | .take _ _ => ∀ st ∈ sts, st.Quiet
    | .stat slot _ _ | .move slot _ _ | .rollback slot =>
      Took docId slot sts ∧ cstr maxNameLen slot.name = slot.name
    | _ => True
  | _ => True

/-- A listing that is put up again in its second, with its lifespan. -/
theorem relists_of_add (hname : cstr maxNameLen slot.name = slot.name)
    (hnow : s.clock = slot.spawnTime) (hlife : drawnLifespan c = slot.lifespanSec)
    (hs : s' = { s with market := m' })
    (hadd : marketAdd s.market s.clock (c.rand.getD 0 0) slot.docId slot.tags slot.basePrice
      slot.name = some m') : BuyStep.Relists slot ⟨s, s'⟩ := by
  obtain ⟨⟨free, slots⟩, hu, rfl⟩ := Option.map_eq_some_iff.1 hadd
  obtain ⟨i, hi, rfl, hfree, -⟩ := updateFirst_eq_set hu
  subst hs
  refine ⟨⟨rfl, rfl⟩, i, free, _, hi, by simpa using hfree, rfl, ?_, rfl⟩
  exact ⟨rfl, rfl, rfl, hname, hnow, hlife⟩

/-- A market that is not full takes a listing. -/
theorem marketAdd_ne_none {now r : ℕ} {docId : ℤ} {tags : Tags} {price : ℤ} {name : Bytes}
    (h : marketIsFull m = false) : marketAdd m now r docId tags price name ≠ none := by
  intro hnone
  have hall := updateFirst_eq_none.1 (Option.map_eq_none_iff.1 hnone)
  have hfull : marketIsFull m = true := by
    refine List.all_eq_true.2 fun slot hslot => ?_
    simpa using hall slot hslot
  rw [h] at hfull
  cases hfull

/-- The state of an operation of `handle_buy` that writes nothing of interest. -/
theorem quiet_of_store {o : Op} {r : o.Ret} (h : o.exec s c = some (s', r))
    (hm : o.store ≠ some .market) (hu : o.store ≠ some .users) (hf : o.store ≠ some .files) :
    BuyStep.Quiet ⟨s, s'⟩ :=
  ⟨⟨(exec_frame h).users hu, (exec_frame h).files hf⟩, (exec_frame h).market hm⟩

/-- A document that could not be moved is where it was. -/
theorem exec_rename {src dst : Folder} {r} (h : (Op.rename src dst docId).exec s c = some (s', r)) :
    r = true ∨ s' = s := by
  simp only [Op.exec] at h
  split at h <;> cases h
  · exact .inr rfl
  · exact .inl rfl

/-- **The step of a call**: what it has done, where it goes on, and what is left when it is
refused. -/
theorem handleBuy_right {q : Buy} {r : (handleBuy sock key docId q).op.Ret}
    (hm : Named s.market)
    (hR : Thread.BuyRight sts (.session sock key (.buy docId q)))
    (hG : ∀ slot, q = .rollback slot → marketIsFull s.market = false ∧ s.clock = slot.spawnTime ∧
      drawnLifespan c = slot.lifespanSec)
    (h : (handleBuy sock key docId q).op.exec s c = some (s', r)) :
    (∀ q', (handleBuy sock key docId q).next r = .cont q' →
      Thread.BuyRight (sts ++ [⟨s, s'⟩]) (.session sock key (.buy docId q'))) ∧
    ∀ code reason, (handleBuy sock key docId q).next r = .fail code reason →
      LeftAlone docId (sts ++ [⟨s, s'⟩]) := by
  cases q with
  | find | count slot =>
    have hquiet := quiet_concat hR (quiet_of_store h (by rintro ⟨⟩) (by rintro ⟨⟩) (by rintro ⟨⟩))
    refine ⟨fun q' hn => ?_, fun code reason _ => .inl hquiet⟩
    simp only [handleBuy] at hn
    split at hn <;> (try split_ifs at hn) <;> cases hn <;> exact hquiet
  | lookup slot =>
    have hquiet := quiet_concat hR (quiet_of_store h (by rintro ⟨⟩) (by rintro ⟨⟩) (by rintro ⟨⟩))
    refine ⟨fun q' hn => ?_, fun code reason _ => .inl hquiet⟩
    rcases r with rec | ⟨rec, off⟩
    · cases hn
    · simp only [handleBuy] at hn
      split_ifs at hn
      cases hn
      exact hquiet
  | take rec off =>
    cases h
    rcases marketTake_cases s.market docId with ⟨e, he⟩ | ⟨slot, slots, hu, -, he⟩
    · have hquiet : BuyStep.Quiet ⟨s, { s with market := (marketTake s.market docId).2 }⟩ :=
        ⟨⟨rfl, rfl⟩, by rw [he]⟩
      refine ⟨fun q' hn => ?_, fun code reason _ => .inl (quiet_concat hR hquiet)⟩
      rw [he] at hn
      cases e <;> cases hn
    · have htakes : BuyStep.Takes docId slot
          ⟨s, { s with market := (marketTake s.market docId).2 }⟩ := ⟨⟨rfl, rfl⟩, by rw [he]⟩
      refine ⟨fun q' hn => ?_, fun code reason hn => ?_⟩
      · rw [he] at hn
        cases hn
        refine ⟨⟨sts, _, [], rfl, htakes, ?_⟩, hm slot (mem_of_updateFirst hu).1⟩
        rw [List.append_nil]
        exact hR
      · rw [he] at hn
        cases hn
  | stat slot rec off =>
    have htook := hR.1.concat (quiet_of_store h (by rintro ⟨⟩) (by rintro ⟨⟩) (by rintro ⟨⟩))
    refine ⟨fun q' hn => ?_, fun code reason hn => ?_⟩
    · simp only [handleBuy] at hn
      split_ifs at hn <;> cases hn <;> exact ⟨htook, hR.2⟩
    · simp only [handleBuy] at hn
      split_ifs at hn
  | move slot rec off =>
    refine ⟨fun q' hn => ?_, fun code reason hn => ?_⟩
    · simp only [handleBuy] at hn
      split_ifs at hn with hok <;> cases hn
      · trivial
      · rw [(exec_rename h).resolve_left hok]
        exact ⟨hR.1.concat ⟨⟨rfl, rfl⟩, rfl⟩, hR.2⟩
    · simp only [handleBuy] at hn
      split_ifs at hn
  | rollback slot =>
    obtain ⟨hroom, hnow, hlife⟩ := hG slot rfl
    refine ⟨fun q' hn => absurd hn (by rintro ⟨⟩), fun code reason _ =>
      .inr ⟨slot, sts, _, rfl, hR.1, ?_⟩⟩
    rcases hadd : marketAdd s.market s.clock (c.rand.getD 0 0) slot.docId slot.tags
      slot.basePrice slot.name with _ | m
    · exact absurd hadd (marketAdd_ne_none hroom)
    · simp only [handleBuy, Op.exec, hadd] at h
      cases h
      exact relists_of_add hR.2 hnow hlife rfl hadd
  | charge slot rec off | reply slot rec =>
    refine ⟨fun q' hn => ?_, (by rintro _ _ ⟨⟩)⟩
    cases hn
    trivial
  | announce => exact ⟨fun q' hn => absurd hn (by rintro ⟨⟩), (by rintro _ _ ⟨⟩)⟩

/-! ### Other commands -/

/-- A command that is no purchase. -/
def Command.isBuy : Command → Bool
  | .buy _ _ => true
  | _ => false

theorem resume_not_buy {α : Type} {f : α → Command} {check : Bool} {x : Next α} {pc' : Command}
    (h : Command.resume f check x = .cont pc') (hf : ∀ q, (f q).isBuy = false) :
    pc'.isBuy = false := by
  cases x with
  | cont q => cases h; exact hf q
  | ret b =>
    cases h
    split_ifs <;> rfl
  | fail code reason => cases h; rfl

/-- A purchase begins with a request. -/
theorem clientLoop_not_buy {pc pc' : Command} {r : (clientLoop sock key pc).op.Ret}
    (hpc : pc.isBuy = false) (hbusy : pc ≠ .recv)
    (hn : (clientLoop sock key pc).next r = .cont pc') : pc'.isBuy = false := by
  cases pc with
  | recv => exact absurd rfl hbusy
  | buy d q => cases hpc
  | error code reason check =>
    cases hn
    split_ifs <;> rfl
  | chat text => cases hn; rfl
  | bankruptcy q | leak q =>
    simp only [clientLoop, Action.map] at hn
    split at hn <;> cases hn <;> rfl
  | sell n ds q | rumor k q | payoff q | fakeRich q | minigame code q | dispose d q | inventory q
  | selfRaid q | endround q => exact resume_not_buy hn fun _ => rfl

theorem buyRight_of_not_buy {pc : Command} (h : pc.isBuy = false) :
    Thread.BuyRight sts (.session sock key pc) := by
  cases pc with
  | buy d q => cases h
  | _ => trivial

/-- The first point of a request. -/
theorem buyRight_dispatch (req : Request) :
    Thread.BuyRight [] (.session sock key (Command.dispatch req)) := by
  cases req with
  | buy d => exact fun st hst => absurd hst List.not_mem_nil
  | chat text =>
    refine buyRight_of_not_buy ?_
    rw [Command.dispatch]
    split_ifs <;> rfl
  | sell n count ds =>
    refine buyRight_of_not_buy ?_
    rw [Command.dispatch]
    split_ifs <;> rfl
  | _ => trivial

/-- A thread that is no session does not become one in the middle of a purchase. -/
theorem buyRight_of_no_session (hno : ∀ sock key pc, th ≠ .session sock key pc)
    (ha : th.action = some a) (h : a.Steps s c s' th') : th'.BuyRight sts := by
  have ho := thread_origin ha h
  cases th' with
  | session sock key pc' =>
    obtain ⟨pc, rfl, -⟩ | ⟨rfl, -⟩ := ho
    · exact absurd rfl (hno sock key pc)
    · trivial
  | _ => trivial

/-- The record of an operation of a call. -/
theorem buyEvents_of_exec {q : Buy} {r : (handleBuy sock key docId q).op.Ret}
    (h : (handleBuy sock key docId q).op.exec s c = some (s', r)) :
    Thread.buyEvents t s c (.session sock key (.buy docId q)) = .step t s s' ::
      match (handleBuy sock key docId q).next r with
      | .fail _ _ => [.refused t docId]
      | _ => [] := by
  simp only [Thread.buyEvents, h]

/-- **The step of a call**, with its record. -/
theorem call_right {q : Buy} {r : (handleBuy sock key docId q).op.Ret} (hm : Named s.market)
    (hR : Thread.BuyRight (callSteps t hist) (.session sock key (.buy docId q)))
    (hG : ∀ slot, q = .rollback slot → marketIsFull s.market = false ∧ s.clock = slot.spawnTime ∧
      drawnLifespan c = slot.lifespanSec)
    (h : (handleBuy sock key docId q).op.exec s c = some (s', r)) {pc' : Command}
    (hn : Command.resume (.buy docId) true ((handleBuy sock key docId q).next r) = .cont pc') :
    Thread.BuyRight (callSteps t
      (hist ++ Thread.buyEvents t s c (.session sock key (.buy docId q)))) (.session sock key pc') ∧
    ∀ pre e post, Thread.buyEvents t s c (.session sock key (.buy docId q)) = pre ++ e :: post →
      RefusalNil (hist ++ pre) e := by
  obtain ⟨hgoes, hends⟩ := handleBuy_right hm hR hG h
  rw [buyEvents_of_exec h]
  cases hx : (handleBuy sock key docId q).next r with
  | cont q' =>
    rw [hx] at hn
    cases hn
    refine ⟨?_, fun pre e post heq => ?_⟩
    · rw [callSteps_append]
      simpa [callStep] using hgoes q' hx
    · rcases pre with _ | ⟨x, pre⟩
      · cases heq
        trivial
      · simp at heq
  | ret b =>
    rw [hx] at hn
    cases hn
    refine ⟨trivial, fun pre e post heq => ?_⟩
    rcases pre with _ | ⟨x, pre⟩
    · cases heq
      trivial
    · simp at heq
  | fail code reason =>
    rw [hx] at hn
    cases hn
    refine ⟨trivial, fun pre e post heq => ?_⟩
    rcases pre with _ | ⟨x, _ | ⟨y, pre⟩⟩
    · cases heq
      trivial
    · cases heq
      show LeftAlone docId (callSteps t (hist ++ [BuyEvent.step t s s']))
      rw [callSteps_append]
      simpa [callStep] using hends code reason hx
    · simp at heq

/-- **The step of a thread**: what its call has done, and what is left when the call is refused. -/
theorem thread_right (hm : Named s.market) (hR : th.BuyRight (callSteps t hist))
    (hG : ∀ slot ∈ th.rollback, marketIsFull s.market = false ∧ s.clock = slot.spawnTime ∧
      drawnLifespan c = slot.lifespanSec)
    {r : a.op.Ret} (ha : th.action = some a) (h : a.op.exec s c = some (s', r)) :
    (a.next r).BuyRight (callSteps t (hist ++ th.buyEvents t s c)) ∧
    ∀ pre e post, th.buyEvents t s c = pre ++ e :: post → RefusalNil (hist ++ pre) e := by
  have hnone : ∀ {l : List BuyEvent}, l = [] → ∀ pre e post, l = pre ++ e :: post →
      RefusalNil (hist ++ pre) e := by
    rintro _ rfl pre e post heq
    simp at heq
  have hother : (∀ sock key pc, th ≠ .session sock key pc) → th.buyEvents t s c = [] →
      (a.next r).BuyRight (callSteps t (hist ++ th.buyEvents t s c)) ∧
      ∀ pre e post, th.buyEvents t s c = pre ++ e :: post → RefusalNil (hist ++ pre) e :=
    fun hno hev => ⟨buyRight_of_no_session hno ha ⟨r, h, rfl⟩, hnone hev⟩
  cases th with
  | session sock key pc =>
    cases ha
    by_cases hbusy : pc = .recv
    · subst hbusy
      have hrequest : callSteps t (hist ++ [BuyEvent.request t]) = [] := by
        rw [callSteps_append]
        simp [callStep]
      refine ⟨?_, fun pre e post heq => ?_⟩
      · show Thread.BuyRight (callSteps t (hist ++ [BuyEvent.request t])) _
        rw [hrequest]
        rcases r with _ | req
        · trivial
        · exact buyRight_dispatch req
      · rcases pre with _ | ⟨x, pre⟩
        · cases heq
          trivial
        · simp [Thread.buyEvents] at heq
    · have hnext : ∀ n, (clientLoop sock key pc).next r = n →
          Thread.BuyRight (callSteps t (hist ++ Thread.buyEvents t s c (.session sock key pc)))
            (Thread.afterCommand sock key n) ∧
          ∀ pre e post, Thread.buyEvents t s c (.session sock key pc) = pre ++ e :: post →
            RefusalNil (hist ++ pre) e := by
        intro n hn
        rcases hbuy : pc.isBuy with _ | _
        · have hev : Thread.buyEvents t s c (.session sock key pc) = [] := by
            cases pc with
            | recv => exact absurd rfl hbusy
            | buy d q => cases hbuy
            | _ => rfl
          refine ⟨?_, hnone hev⟩
          cases n with
          | cont pc' => exact buyRight_of_not_buy (clientLoop_not_buy hbuy hbusy hn)
          | _ => trivial
        · cases pc with
          | buy d q =>
            have hq : ∀ slot, q = .rollback slot → marketIsFull s.market = false ∧
                s.clock = slot.spawnTime ∧ drawnLifespan c = slot.lifespanSec := by
              rintro slot rfl
              exact hG slot rfl
            cases n with
            | cont pc' => exact call_right hm hR hq h hn
            | ret b => cases hx : (handleBuy sock key d q).next r <;>
                simp only [clientLoop, Action.map, hx] at hn <;> cases hn
            | fail code reason => cases hx : (handleBuy sock key d q).next r <;>
                simp only [clientLoop, Action.map, hx] at hn <;> cases hn
          | _ => cases hbuy
      exact hnext _ rfl
  | main pc | login sock pc | disconnect sock pc | event v pc | npcSequence pc
  | leakRecovery mask dur pc | raidTimeout serial pc | roundEndTimer pc | finished =>
    exact hother (by rintro _ _ _ ⟨⟩) rfl

/-! ### The server -/

/-- Every call has done what its point says, and every refusal left everything as it was. -/
structure RefusalInv (x : Server × List BuyEvent) : Prop where
  named : Named x.1.shared.market
  right : ∀ (t : ℕ) (th : Thread), x.1.threads[t]? = some th → th.BuyRight (callSteps t x.2)
  done : RefusalsNil x.2

theorem refusalInv_boot (cwd : Dir) (files : Files) (users : UserDb) (clock : ℕ) :
    RefusalInv (boot cwd files users clock, []) where
  named := fun slot hslot => absurd hslot List.not_mem_nil
  right t th h := by
    obtain rfl := List.mem_singleton.1 (List.mem_of_getElem? h)
    trivial
  done := along_nil

/-- **The step of the server.** -/
theorem refusalInv_step {p p' : Server} {l : Label} (hI : RefusalInv (p, hist))
    (hG : RollbackGuard p l) (hn : server.next p l = some p') :
    RefusalInv (p', hist ++ buyEventsAt p l) := by
  cases l with
  | env seconds =>
    obtain rfl := Pool.next_env.1 hn
    have hev : buyEventsAt p (.env seconds) = [] := rfl
    rw [hev, List.append_nil]
    exact ⟨hI.named, hI.right, hI.done⟩
  | run t c =>
    obtain ⟨th, a, r, hth, ha, hr, hths⟩ := server_run hn
    have hev : buyEventsAt p (.run t c) = th.buyEvents t p.shared c := by
      simp only [buyEventsAt, hth]
      rfl
    have hguard : ∀ slot ∈ th.rollback, marketIsFull p.shared.market = false ∧
        p.shared.clock = slot.spawnTime ∧ drawnLifespan c = slot.lifespanSec := by
      intro slot hslot
      refine hG slot ?_
      simp only [threadAt, hth]
      exact hslot
    obtain ⟨hown, hnil⟩ := thread_right hI.named (hI.right t th hth) hguard ha hr
    rw [hev]
    refine ⟨named_step hI.named (market_step ha ⟨r, hr, rfl⟩), fun j u hu => ?_,
      hI.done.append hnil⟩
    rw [hths] at hu
    rcases Pool.getElem?_step hu with ⟨hj, hu⟩ | ⟨rfl, rfl⟩ | hu
    · rw [callSteps_other (Ne.symm hj)]
      exact hI.right j u hu
    · exact hown
    · obtain ⟨n, rfl⟩ | ⟨sock, -, rfl⟩ := spawned_start hu
      · cases n <;> trivial
      · trivial

/-- **A refused purchase leaves everything as it was**, in every run of the server in which each
rollback finds a free slot, in the second of the listing, and draws its lifespan again. -/
theorem refusalsNil_of_guard (cwd : Dir) (files : Files) (users : UserDb) (clock : ℕ)
    {x : Server × List BuyEvent} (h : buyServer.Reach (fun x l => RollbackGuard x.1 l)
      (boot cwd files users clock, []) x) : RefusalsNil x.2 := by
  have hI : RefusalInv x := by
    refine h.invariant (refusalInv_boot cwd files users clock) fun x l x' _ hI hG hn => ?_
    obtain ⟨hn, hhist⟩ := System.withHistory_next.1 hn
    have hx : x' = (x'.1, x.2 ++ buyEventsAt x.1 l) := by rw [← hhist]
    rw [hx]
    exact refusalInv_step hI hG hn
  exact hI.done

/-! ### Runs -/

/-- Alice buys a document, and it cannot be moved. -/
def immovableScript : List Label :=
  startUp ++ connect 5 ++ logIn 2 (Key.ofBytes (utf8 "alice")) ++
    receive 2 (.buy 47) :: steps 2 5 ++ [.run 2 { ok := false }]

/-- The event is the refusal of Alice. -/
def isRefusal : BuyEvent → Bool
  | .refused t docId => t == 2 && docId == 47
  | _ => false

/-- A guarded run with a rollback. -/
theorem refusalsNil_alice : ∃ x, buyServer.Reach (fun x l => RollbackGuard x.1 l)
    (freshBoot, []) x ∧
    (marketFind x.1.shared.market 47).isSome = true ∧ x.2.any isRefusal = true ∧
      RefusalsNil x.2 := by
  obtain ⟨x, hx, hf⟩ := buyServer.exists_reach_of_any (fun x l => RollbackGuard x.1 l)
    (freshBoot, []) (immovableScript ++ steps 2 1)
    (fun x => (marketFind x.1.shared.market 47).isSome && x.2.any isRefusal) (by decide +kernel)
  obtain ⟨hlisted, hrefused⟩ := Bool.and_eq_true_iff.1 hf
  exact ⟨x, hx, hlisted, hrefused, refusalsNil_of_guard _ _ _ _ hx⟩

/-- A call that leaves everything alone puts up no listing that is newer than all it found. -/
theorem LeftAlone.spawnTime_le {n : ℕ} (h : LeftAlone docId sts)
    (hold : ∀ st ∈ sts, ∀ slot ∈ st.before.market.slots, slot.spawnTime ≤ n) :
    ∀ st ∈ sts, ∀ slot ∈ st.after.market.slots, slot.spawnTime ≤ n := by
  have hquiet : ∀ st ∈ sts, st.Quiet → ∀ slot ∈ st.after.market.slots, slot.spawnTime ≤ n := by
    intro st hst hq slot hslot
    rw [hq.2] at hslot
    exact hold st hst slot hslot
  rcases h with hall | ⟨slot, took, back, rfl, ⟨pre, taken, mid, rfl, htakes, hidle⟩, hback⟩
  · exact fun st hst => hquiet st hst (hall st hst)
  · have hmem : taken ∈ (pre ++ taken :: mid) ++ [back] := by simp
    obtain ⟨slots, hu, hafter⟩ : ∃ slots, updateFirst (·.lists docId)
        (fun s => { s with active := false }) taken.before.market.slots = some (slot, slots) ∧
        taken.after.market.slots = slots := by
      have htake := htakes.2
      rcases marketTake_cases taken.before.market docId with
        ⟨e, he⟩ | ⟨slot', slots, hu, -, he⟩ <;> rw [he, Prod.mk.injEq] at htake
      · cases htake.1
      · obtain ⟨hok, hmarket⟩ := htake
        cases hok
        exact ⟨slots, hu, by rw [← hmarket]⟩
    have hslot : slot.spawnTime ≤ n := hold taken hmem slot (mem_of_updateFirst hu).1
    intro st hst slot' hslot'
    rcases List.mem_append.1 hst with hst' | hst'
    · rcases List.mem_append.1 hst' with hpre | hrest
      · exact hquiet st hst (hidle st (List.mem_append_left _ hpre)) slot' hslot'
      · rcases List.mem_cons.1 hrest with rfl | hmid
        · rw [hafter] at hslot'
          rcases mem_updateFirst hu hslot' with rfl | hslot'
          · exact hslot
          · exact hold st hst slot' hslot'
        · exact hquiet st hst (hidle st (List.mem_append_right _ hmid)) slot' hslot'
    · obtain rfl := List.mem_singleton.1 hst'
      obtain ⟨-, i, free, new, -, -, -, hsame, hback⟩ := hback
      rw [hback] at hslot'
      rcases List.mem_or_eq_of_mem_set hslot' with hslot' | rfl
      · exact hold st hst slot' hslot'
      · rw [hsame.2.2.2.2.1]
        exact hslot

/-- A second passes before the rollback: the listing stays longer than it was to. -/
theorem not_refusalsNil : ∃ x, buyServer.Reach System.anyStep (freshBoot, []) x ∧
    ¬ RefusalsNil x.2 := by
  obtain ⟨x, hx, hf⟩ := buyServer.exists_reach_of_any System.anyStep (freshBoot, [])
    (immovableScript ++ .env 1 :: steps 2 1)
    (fun x => x.2.getLast?.any isRefusal &&
      ((callSteps 2 x.2).all fun st => st.before.market.slots.all fun slot => slot.spawnTime ≤ 1) &&
      (callSteps 2 x.2).any fun st => st.after.market.slots.any fun slot => 1 < slot.spawnTime)
    (by decide +kernel)
  obtain ⟨hf, hlate⟩ := Bool.and_eq_true_iff.1 hf
  obtain ⟨hlast, hearly⟩ := Bool.and_eq_true_iff.1 hf
  refine ⟨x, hx, fun hnil => ?_⟩
  obtain ⟨e, he, hrefusal⟩ := (Option.any_eq_true _ _).1 hlast
  have hsplit : x.2 = x.2.dropLast ++ e :: [] := (List.dropLast_append_getLast? e he).symm
  rcases e with u | ⟨u, before, after⟩ | ⟨u, docId⟩
  · cases hrefusal
  · cases hrefusal
  · obtain ⟨rfl, rfl⟩ : u = 2 ∧ docId = 47 := by simpa [isRefusal] using hrefusal
    have hleft : LeftAlone 47 (callSteps 2 x.2.dropLast) := hnil _ _ _ hsplit
    have hsame : callSteps 2 x.2 = callSteps 2 x.2.dropLast := by
      rw [hsplit, callSteps_append, List.dropLast_concat]
      rfl
    rw [hsame] at hearly hlate
    obtain ⟨st, hst, hany⟩ := List.any_eq_true.1 hlate
    obtain ⟨slot, hslot, hnew⟩ := List.any_eq_true.1 hany
    have hle : slot.spawnTime ≤ 1 := hleft.spawnTime_le (fun st hst slot hslot => by
      simpa using List.all_eq_true.1 (List.all_eq_true.1 hearly st hst) slot hslot) st
        hst slot hslot
    have hlt : 1 < slot.spawnTime := of_decide_eq_true hnew
    omega

end UnderFlow
