import UnderFlow.LTS.Dialogue
import UnderFlow.Server.Footprint

/-!
# What a handler answers

A command loop serves one request after the other, and the client knows the answers only by the
order in which they arrive.

* `Request.Answers` : the packets a handler writes for a request, and whether the session goes on.
  The reply itself may be empty: a chat, a leak, the end of a round and a wrong passcode are
  answered by broadcasts and unicasts alone.  A raid that is called off is answered by the packet of
  the raid and an error.
* `Command.Owes` : what a handler may still write before it waits for the next request.
* `talkServer` : the server with a record of what each handler has read and written.
* `answer_step` : what was owed before a step is what the step writes, and what is owed after it.
* `speaks_of_reach` : **in every run each handler answers every request**, in order, before it reads
  the next one, and writes nothing else with `packet_send`.
-/

namespace UnderFlow

variable {s s' : Shared} {c : Choice} {th th' : Thread} {a : Action Thread} {p p' : Server}
  {t sock : ℕ} {key : Key} {req : Request} {check more : Bool} {rs ws vs : List Packet}
  {code : ErrorCode} {reason : Bytes}

/-! ### The answers -/

/-- Nothing is left to write. -/
inductive Silent : List Packet → Bool → Prop
  | done : Silent [] true

/-- What `check_bankruptcy` may write. -/
inductive Verdict : List Packet → Bool → Prop
  | solvent : Verdict [] true
  | broke (message : Bytes) : Verdict [.gameOver message] false

/-- What follows the reply to a command, with or without the bankruptcy check. -/
def Follows (check : Bool) : List Packet → Bool → Prop := if check then Verdict else Silent

/-- The requests after which the bankruptcy is checked. -/
def Request.checked : Request → Bool
  | .buy _ | .rumor _ => true
  | _ => false

/-- The codes of the errors a request is answered with. -/
def Request.errors : Request → List ErrorCode
  | .buy _ => [.docNotFound, .docFrozen, .inventoryFull, .invalidSession, .notEnoughMoney]
  | .sell _ _ _ => [.tagMismatch, .npcNotFound, .docNotFound, .docFrozen, .npcAlreadyTaken]
  | .dispose _ => [.docNotFound]
  | .rumor _ => [.rumorCooldown, .invalidSession, .notEnoughMoney]
  | .chat text => if text = utf8 "/payoff" then [.invalidSession, .notEnoughMoney] else []
  | .minigameSubmit _ => [.invalidSession]
  | .triggerRaid => [.invalidSession]
  | .triggerLeak => [.docNotFound]
  | .triggerRich => [.invalidSession]
  | _ => []

/-- The replies to a request. -/
inductive Request.Replies : Request → List Packet → Prop
  | error (req : Request) (code : ErrorCode) (reason : Bytes) :
      code ∈ req.errors → Replies req [.error code reason]
  | bought (docId money : ℤ) (tags : Tags) (name : Bytes) :
      Replies (.buy docId) [.buyOk docId money tags name]
  | sold (npcId count : ℤ) (docIds : Vector ℤ maxInvenSize) (bounty money : ℤ) :
      0 < count → count ≤ maxInvenSize → Replies (.sell npcId count docIds) [.sellOk bounty money]
  | disposed (docId : ℤ) : Replies (.dispose docId) [.disposeOk]
  | listed (items : List InvenItem) (money : ℤ) : Replies .inven [.invenInfo items money]
  | spread (targetKey : Key) (items : List InvenItem) (money : ℤ) :
      Replies (.rumor targetKey) [.invenInfo items money]
  | escaped (message : Bytes) : Replies (.chat (utf8 "/payoff")) [.victory message]
  | chat (text : Bytes) : text ≠ utf8 "/payoff" → Replies (.chat text) []
  | evaded (passcode : Bytes) : Replies (.minigameSubmit passcode) [.minigameOk]
  -- the burned player is told by `unicast_to_key`
  | caught (passcode : Bytes) : Replies (.minigameSubmit passcode) []
  | raided (passcode : Bytes) :
      Replies .triggerRaid [.policeRaid passcode periodicRaidTimeLimitSec]
  | called_off (passcode reason : Bytes) : Replies .triggerRaid
      [.policeRaid passcode periodicRaidTimeLimitSec, .error .invalidSession reason]
  | leaked : Replies .triggerLeak []
  | filled (items : List InvenItem) (money : ℤ) (text : Bytes) :
      Replies .triggerRich [.invenInfo items money, .chat (utf8 "[DEBUG]") text]
  | ended : Replies .triggerEndround []
  | login (key : Key) : Replies (.login key) []
  | other : Replies .other []

/-- Some packets are written first. -/
def Before (rs : List Packet) (left : List Packet → Bool → Prop) (ws : List Packet)
    (more : Bool) : Prop := ∃ vs, left vs more ∧ ws = rs ++ vs

/-- **The answer to a request**: a reply, and the bankruptcy check where there is one. -/
def Request.Answers (req : Request) (ws : List Packet) (more : Bool) : Prop :=
  ∃ rs, req.Replies rs ∧ Before rs (Follows req.checked) ws more

/-! ### What is owed -/

/-- What a handler may still write before it waits for the next request. -/
def Command.Owes : Command → List Packet → Bool → Prop
  | .recv => Silent
  | .error code reason check => Before [.error code (cstr maxTextLen reason)] (Follows check)
  | .bankruptcy _ => Verdict
  | .buy _ .announce => Verdict
  | .buy docId (.reply slot rec) => Before [.buyOk docId rec.money slot.tags slot.name] Verdict
  | .buy docId _ => Request.Answers (.buy docId)
  | .sell _ _ .announce => Silent
  | .sell _ _ (.reply npc _ rec _) => Before [.sellOk npc.bounty rec.money] Silent
  | .sell _ _ (.dispose _ _ _ _) | .sell _ _ (.lookup _ _) | .sell _ _ (.credit _ _ _ _)
  | .sell _ _ (.creditIndeterminate _ _ _) => fun ws more =>
    ∃ bounty money, Before [.sellOk bounty money] Silent ws more
  | .sell npcId _ _ => fun ws more => ∀ (count : ℤ) docIds, 0 < count → count ≤ maxInvenSize →
    Request.Answers (.sell npcId count docIds) ws more
  | .dispose docId _ => Request.Answers (.dispose docId)
  | .inventory _ => Request.Answers .inven
  | .rumor _ (.leave code reason) => Before [.error code (cstr maxTextLen reason)] (Follows true)
  | .rumor targetKey _ => Request.Answers (.rumor targetKey)
  | .payoff (.announce _) | .payoff (.goalUpdate _) | .payoff (.roundEnd _) => Silent
  | .payoff _ => Request.Answers (.chat (utf8 "/payoff"))
  | .chat _ => Silent
  | .minigame passcode _ => Request.Answers (.minigameSubmit passcode)
  | .selfRaid .launch => Request.Answers .triggerRaid
  | .selfRaid (.announce passcode _) => fun ws more =>
    Before [.policeRaid passcode periodicRaidTimeLimitSec] Silent ws more ∨
      ∃ reason, Before [.policeRaid passcode periodicRaidTimeLimitSec,
        .error .invalidSession reason] Silent ws more
  | .selfRaid (.timer _) => fun ws more => Silent ws more ∨
      ∃ reason, Before [.error .invalidSession reason] Silent ws more
  | .selfRaid .rollback => fun ws more =>
      ∃ reason, Before [.error .invalidSession reason] Silent ws more
  | .leak _ => Request.Answers .triggerLeak
  | .fakeRich (.note _) => fun ws more =>
    ∃ text, Before [.chat (utf8 "[DEBUG]") text] Silent ws more
  | .fakeRich _ => Request.Answers .triggerRich
  | .endround _ => Silent

/-- What is owed after a step of the loop: nothing once the session is over. -/
def Next.Owes : Next Command → List Packet → Bool → Prop
  | .cont pc => pc.Owes
  | _ => fun ws more => ws = [] ∧ more = false

/-- The packets a handler writes to its own connection with `packet_send`.  What it broadcasts or
unicasts through the client table may reach its connection as well, and is left out. -/
def Op.told : Op → List Packet
  | .packetSend _ pkt => [pkt]
  | _ => []

/-! ### One step -/

@[simp] theorem silent_iff : Silent ws more ↔ ws = [] ∧ more = true := by
  constructor
  · rintro ⟨⟩
    exact ⟨rfl, rfl⟩
  · rintro ⟨rfl, rfl⟩
    exact .done

theorem before_append (rs : List Packet) {left : List Packet → Bool → Prop}
    (h : Before vs left ws more) : Before (rs ++ vs) left (rs ++ ws) more := by
  obtain ⟨us, hleft, rfl⟩ := h
  exact ⟨us, hleft, (List.append_assoc _ _ _).symm⟩

/-- A packet is written first, and what is left comes after it. -/
theorem before_cons {left : List Packet → Bool → Prop} {pkt : Packet} (h : left ws more) :
    Before [pkt] left (pkt :: ws) more := ⟨ws, h, rfl⟩

theorem Request.Replies.answers {req : Request} (h : req.Replies rs)
    (hfollow : Follows req.checked ws more) : req.Answers (rs ++ ws) more :=
  ⟨rs, h, ws, hfollow, rfl⟩

/-- An error answers a request that has it among its errors. -/
theorem answers_error (hcode : code ∈ req.errors)
    (h : (Command.error code reason req.checked).Owes ws more) : req.Answers ws more := by
  obtain ⟨vs, hleft, rfl⟩ := h
  exact (Request.Replies.error req code _ hcode).answers hleft

/-- What is owed when a handler returns. -/
theorem follows_of_ret (h : (if check then Command.bankruptcy .lookup else .recv).Owes ws more) :
    Follows check ws more := by
  cases check <;> exact h

section Handlers

variable {n : Next Inventory} {e : Next RoundEnd}

theorem owes_buy (docId : ℤ) (pc : Buy) (r)
    (h : (Command.resume (.buy docId) true ((handleBuy sock key docId pc).next r)).Owes ws more) :
    (Command.buy docId pc).Owes ((handleBuy sock key docId pc).op.told ++ ws) more := by
  cases pc with
  | find =>
    cases r with
    | none => exact answers_error (by simp [Request.errors]) h
    | some slot =>
      simp only [handleBuy] at h
      split_ifs at h
      · exact answers_error (by simp [Request.errors]) h
      · exact h
  | count slot =>
    cases r with
    | none => exact h
    | some n =>
      simp only [handleBuy] at h
      split_ifs at h
      · exact answers_error (by simp [Request.errors]) h
      · exact h
  | lookup slot =>
    cases r with
    | error rec => exact answers_error (by simp [Request.errors]) h
    | ok p =>
      simp only [handleBuy] at h
      split_ifs at h
      · exact answers_error (by simp [Request.errors]) h
      · exact h
  | take rec offset =>
    cases r with
    | error e => cases e <;> exact answers_error (by simp [Request.errors]) h
    | ok slot => exact h
  | stat slot rec offset | move slot rec offset =>
    simp only [handleBuy] at h
    split_ifs at h <;> exact h
  | rollback slot => exact answers_error (by simp [Request.errors]) h
  | charge slot rec offset =>
    obtain ⟨vs, hleft, rfl⟩ := h
    exact (Request.Replies.bought docId _ _ _).answers hleft
  | reply slot rec => exact before_cons h
  | announce => exact h

theorem owes_sell (npcId : ℤ) (docIds : List ℤ) (pc : Sell) (r)
    (h : (Command.resume (.sell npcId docIds) false
      ((handleSell sock key npcId docIds pc).next r)).Owes ws more) :
    (Command.sell npcId docIds pc).Owes ((handleSell sock key npcId docIds pc).op.told ++ ws)
      more := by
  -- the next document, or the end of the check
  have hcheck : ∀ npc tagUnion todo,
      (Command.resume (.sell npcId docIds) false (Sell.check npc tagUnion todo)).Owes ws more →
      ∀ (count : ℤ) docIds, 0 < count → count ≤ maxInvenSize →
        Request.Answers (.sell npcId count docIds) ws more := by
    intro npc tagUnion todo h
    cases todo with
    | nil =>
      simp only [Sell.check] at h
      split_ifs at h
      · exact fun _ _ _ _ => answers_error (by simp [Request.errors]) h
      · exact h
    | cons d todo => exact h
  have hdispose : ∀ npc sold todo, (Command.sell npcId docIds (Sell.disposeNext npc sold todo)).Owes
      ws more → ∃ bounty money, Before [.sellOk bounty money] Silent ws more := by
    intro npc sold todo h
    cases todo <;> exact h
  cases pc with
  | findNpc =>
    cases r with
    | none => exact fun _ _ _ _ => answers_error (by simp [Request.errors]) h
    | some npc => exact hcheck _ _ _ h
  | has npc d todo tagUnion =>
    simp only [handleSell] at h
    split_ifs at h
    · exact h
    · exact fun _ _ _ _ => answers_error (by simp [Request.errors]) h
  | read npc d todo tagUnion =>
    cases r with
    | none => exact fun _ _ _ _ => answers_error (by simp [Request.errors]) h
    | some df => exact h
  | frozen npc df todo tagUnion =>
    simp only [handleSell] at h
    split_ifs at h
    · exact fun _ _ _ _ => answers_error (by simp [Request.errors]) h
    · exact hcheck _ _ _ h
  | take =>
    cases r with
    | none => exact fun _ _ _ _ => answers_error (by simp [Request.errors]) h
    | some npc =>
      intro count ids hpos hle
      obtain ⟨bounty, money, vs, hleft, rfl⟩ := hdispose _ _ _ h
      exact (Request.Replies.sold npcId count ids bounty money hpos hle).answers hleft
  | dispose npc d todo sold => exact hdispose _ _ _ h
  | lookup npc sold => cases r <;> exact h
  | credit npc sold rec offset | creditIndeterminate npc sold rec => exact ⟨_, _, h⟩
  | reply npc sold rec old => exact before_cons h
  | announce => exact h

theorem owes_dispose (docId : ℤ) (pc : Dispose) (r)
    (h : (Command.resume (.dispose docId) false
      ((handleDispose sock key docId pc).next r)).Owes ws more) :
    (Command.dispose docId pc).Owes ((handleDispose sock key docId pc).op.told ++ ws) more := by
  cases pc with
  | has | unlink =>
    simp only [handleDispose] at h
    split_ifs at h
    · exact h
    · exact answers_error (by simp [Request.errors]) h
  | reply => exact (Request.Replies.disposed docId).answers h

/-- The inventory answers the requests that ask for it. -/
theorem owes_inventory {f : Inventory → Command} {pc : Inventory}
    (hreply : ∀ items money, req.Replies [.invenInfo items money])
    (hf : ∀ pc, (f pc).Owes = req.Answers) (hstep : (handleInventory sock key pc).Steps s c s' n)
    (h : (Command.resume f req.checked n).Owes ws more) :
    (f pc).Owes ((handleInventory sock key pc).op.told ++ ws) more := by
  rw [hf]
  rcases handleInventory_next hstep with ⟨pc', rfl, hpc⟩ | ⟨rfl, items, money, rfl⟩
  · have htold : (handleInventory sock key pc).op.told = [] := by
      cases pc with
      | list pc => cases pc <;> rfl
      | lookup items => rfl
      | send items money => exact absurd rfl (hpc items money)
    have h : (f pc').Owes ws more := h
    rw [hf] at h
    rw [htold]
    exact h
  · exact (hreply items money).answers (follows_of_ret h)

theorem owes_rumor (targetKey : Key) (pc : Rumoring) {n : Next Rumoring}
    (hstep : (handleRumor sock key targetKey pc).Steps s c s' n)
    (h : (Command.resume (.rumor targetKey) true n).Owes ws more) :
    (Command.rumor targetKey pc).Owes ((handleRumor sock key targetKey pc).op.told ++ ws)
      more := by
  cases pc with
  | enter =>
    obtain ⟨r, -, rfl⟩ := hstep
    cases r with
    | error remain => exact answers_error (by simp [Request.errors]) h
    | ok now => exact h
  | lookup now =>
    obtain ⟨r, -, rfl⟩ := hstep
    cases r with
    | error rec => exact answers_error (by simp [Request.errors]) h
    | ok p =>
      simp only [handleRumor] at h
      split_ifs at h
      · exact answers_error (by simp [Request.errors]) h
      · exact h
  | leave code reason | update now rec offset | commit now | glitch =>
    obtain ⟨r, -, rfl⟩ := hstep
    exact h
  | inventory pc =>
    obtain ⟨n', hn', rfl⟩ := Action.steps_map.1 hstep
    refine owes_inventory (f := fun pc => .rumor targetKey (.inventory pc))
      (fun items money => .spread targetKey items money) (fun pc => rfl) hn' ?_
    cases n' <;> exact h

/-- The countdown writes to everybody, and does not fail. -/
theorem fireRoundEndCountdown_next {text : Bytes} {pc : RoundEnd}
    (h : (fireRoundEndCountdown text pc).Steps s c s' e) :
    (fireRoundEndCountdown text pc).op.told = [] ∧ ((∃ pc', e = .cont pc') ∨ e = .ret ()) := by
  obtain ⟨r, -, rfl⟩ := h
  cases pc with
  | claim | timer =>
    simp only [fireRoundEndCountdown]
    split_ifs
    all_goals simp [Op.told]
  | lookup escaped key todo rank =>
    refine ⟨rfl, .inl ?_⟩
    cases r with
    | error rec => exact ⟨_, rfl⟩
    | ok p =>
      simp only [fireRoundEndCountdown]
      split_ifs
      all_goals exact ⟨_, rfl⟩
  | release => exact ⟨rfl, .inr rfl⟩
  | _ => exact ⟨rfl, .inl ⟨_, rfl⟩⟩

/-- A program without a connection writes nothing to it. -/
theorem told_of_within {β : Type} {b : Action β} {l : List Store} (h : b.Within l none) :
    b.op.told = [] := by
  cases ho : b.op with
  | packetSend sock pkt => exact nomatch h.2 sock (by rw [ho]; rfl)
  | _ => rfl

theorem burnUserByKey_next {pc : Burn} {n : Next Burn} (h : (burnUserByKey key pc).Steps s c s' n) :
    (∃ pc', n = .cont pc') ∨ n = .ret () := by
  cases pc with
  | lookup =>
    obtain ⟨r, -, rfl⟩ := h
    cases r <;> exact .inl ⟨_, rfl⟩
  | burn offset =>
    obtain ⟨r, -, rfl⟩ := h
    exact .inl ⟨_, rfl⟩
  | purge pc =>
    obtain ⟨m, -, rfl⟩ := Action.steps_map.1 h
    cases m <;> exact .inl ⟨_, rfl⟩
  | notify =>
    obtain ⟨r, -, rfl⟩ := h
    exact .inr rfl

theorem owes_payoff (pc : Payoff) {n : Next Payoff}
    (hstep : (handlePayoff sock key pc).Steps s c s' n)
    (h : (Command.resume .payoff false n).Owes ws more) :
    (Command.payoff pc).Owes ((handlePayoff sock key pc).op.told ++ ws) more := by
  cases pc with
  | lookup | commit rec offset =>
    obtain ⟨r, -, rfl⟩ := hstep
    cases r with
    | error _ => exact answers_error (by simp [Request.errors]) h
    | ok p => exact h
  | purge e rec offset pc =>
    obtain ⟨m, -, rfl⟩ := Action.steps_map.1 hstep
    have htold : (handlePayoff sock key (.purge e rec offset pc)).op.told = [] :=
      told_of_within (purgeDocsIn_within _ pc)
    rw [htold]
    cases m <;> exact h
  | update e rec offset =>
    obtain ⟨r, -, rfl⟩ := hstep
    exact h
  | victory e =>
    obtain ⟨r, -, rfl⟩ := hstep
    exact (Request.Replies.escaped _).answers h
  | announce e =>
    obtain ⟨r, -, rfl⟩ := hstep
    exact h
  | goalUpdate e =>
    obtain ⟨r, -, rfl⟩ := hstep
    simp only [handlePayoff] at h
    split_ifs at h <;> exact h
  | roundEnd pc =>
    obtain ⟨m, hm, rfl⟩ := Action.steps_map.1 hstep
    obtain ⟨htold, hnext⟩ := fireRoundEndCountdown_next hm
    have htold' : (handlePayoff sock key (.roundEnd pc)).op.told = [] := htold
    rw [htold']
    rcases hnext with ⟨pc', rfl⟩ | rfl <;> exact h

theorem owes_minigame (passcode : Bytes) (pc : Minigame) {n : Next Minigame}
    (hstep : (handleMinigameSubmit sock key passcode pc).Steps s c s' n)
    (h : (Command.resume (.minigame passcode) false n).Owes ws more) :
    (Command.minigame passcode pc).Owes
      ((handleMinigameSubmit sock key passcode pc).op.told ++ ws) more := by
  cases pc with
  | lookup =>
    obtain ⟨r, -, rfl⟩ := hstep
    cases r with
    | none => exact answers_error (by simp [Request.errors]) h
    | some raid =>
      simp only [handleMinigameSubmit] at h
      split_ifs at h <;> exact h
  | clearOk i serial | clearWrong i serial =>
    obtain ⟨r, -, rfl⟩ := hstep
    exact h
  | reply serial =>
    obtain ⟨r, -, rfl⟩ := hstep
    exact (Request.Replies.evaded passcode).answers h
  | burn serial pc =>
    obtain ⟨m, hm, rfl⟩ := Action.steps_map.1 hstep
    have htold : (handleMinigameSubmit sock key passcode (.burn serial pc)).op.told = [] :=
      told_of_within (burnUserByKey_within _ pc)
    rw [htold]
    rcases burnUserByKey_next hm with ⟨pc', rfl⟩ | rfl
    · exact h
    · exact (Request.Replies.caught passcode).answers h

theorem owes_selfRaid (pc : SelfRaid) (r)
    (h : (Command.resume .selfRaid false ((fireSelfPoliceRaid sock key pc).next r)).Owes ws more) :
    (Command.selfRaid pc).Owes ((fireSelfPoliceRaid sock key pc).op.told ++ ws) more := by
  cases pc with
  | launch =>
    cases r with
    | none => exact answers_error (by simp [Request.errors]) h
    | some raid =>
      rcases h with ⟨vs, hleft, rfl⟩ | ⟨reason, vs, hleft, rfl⟩
      · exact (Request.Replies.raided _).answers hleft
      · exact (Request.Replies.called_off _ reason).answers hleft
  | announce passcode serial =>
    rcases h with h | ⟨reason, h⟩
    · exact .inl (before_cons h)
    · exact .inr ⟨reason, before_append [.policeRaid passcode periodicRaidTimeLimitSec] h⟩
  | timer serial =>
    simp only [fireSelfPoliceRaid] at h
    split_ifs at h
    · exact .inl h
    · exact .inr h
  | rollback => exact ⟨_, h⟩

theorem owes_fakeRich (pc : FakeRich) {n : Next FakeRich}
    (hstep : (handleFakeRich sock key pc).Steps s c s' n)
    (h : (Command.resume .fakeRich false n).Owes ws more) :
    (Command.fakeRich pc).Owes ((handleFakeRich sock key pc).op.told ++ ws) more := by
  cases pc with
  | lookup =>
    obtain ⟨r, -, rfl⟩ := hstep
    cases r with
    | error rec => exact answers_error (by simp [Request.errors]) h
    | ok p => exact h
  | goal rec offset | update rec offset =>
    obtain ⟨r, -, rfl⟩ := hstep
    exact h
  | list rec pc =>
    obtain ⟨m, hm, rfl⟩ := Action.steps_map.1 hstep
    have htold : (handleFakeRich sock key (.list rec pc)).op.told = [] :=
      told_of_within (sandboxList_within _ pc)
    rw [htold]
    rcases m with pc' | items | ⟨code, reason⟩
    · exact h
    · exact h
    · exact absurd hm sandboxList_ne_fail
  | send rec items =>
    obtain ⟨r, -, rfl⟩ := hstep
    obtain ⟨text, vs, hleft, rfl⟩ := h
    exact (Request.Replies.filled items _ text).answers hleft
  | note rec =>
    obtain ⟨r, -, rfl⟩ := hstep
    exact ⟨_, before_cons h⟩

theorem firePublicLeak_next {pc : Leak} {n : Next Leak Bool}
    (h : (firePublicLeak pc).Steps s c s' n) : (∃ pc', n = .cont pc') ∨ ∃ fired, n = .ret fired := by
  obtain ⟨r, -, rfl⟩ := h
  cases pc with
  | present frozen =>
    simp only [firePublicLeak]
    split
    · exact .inr ⟨_, rfl⟩
    · exact .inl ⟨_, rfl⟩
  | malloc mask dur =>
    cases r <;> exact .inl ⟨_, rfl⟩
  | thread mask dur =>
    cases r
    · exact .inl ⟨_, rfl⟩
    · exact .inr ⟨_, rfl⟩
  | unfreeze mask => exact .inr ⟨_, rfl⟩
  | _ => exact .inl ⟨_, rfl⟩

theorem owes_leak (pc : Leak) {n : Next Command}
    (hstep : (clientLoop sock key (.leak pc)).Steps s c s' n) (h : n.Owes ws more) :
    (Command.leak pc).Owes ((clientLoop sock key (.leak pc)).op.told ++ ws) more := by
  obtain ⟨m, hm, rfl⟩ := Action.steps_map.1 hstep
  have htold : (clientLoop sock key (.leak pc)).op.told = [] :=
    told_of_within (firePublicLeak_within pc)
  rw [htold]
  rcases firePublicLeak_next hm with ⟨pc', rfl⟩ | ⟨fired, rfl⟩
  · exact h
  · cases fired with
    | true => exact Request.Replies.leaked.answers h
    | false => exact answers_error (by simp [Request.errors]) h

theorem owes_bankruptcy (pc : Bankruptcy) {n : Next Command}
    (hstep : (clientLoop sock key (.bankruptcy pc)).Steps s c s' n) (h : n.Owes ws more) :
    (Command.bankruptcy pc).Owes ((clientLoop sock key (.bankruptcy pc)).op.told ++ ws) more := by
  obtain ⟨m, ⟨r, -, rfl⟩, rfl⟩ := Action.steps_map.1 hstep
  have hsolvent : Silent ws more → Verdict ws more := by
    rintro ⟨⟩
    exact .solvent
  cases pc with
  | lookup =>
    cases r with
    | error rec => exact hsolvent h
    | ok p =>
      simp only [checkBankruptcy] at h
      split_ifs at h
      · exact hsolvent h
      · exact h
  | count offset =>
    cases r with
    | none => exact hsolvent h
    | some n =>
      simp only [checkBankruptcy] at h
      split_ifs at h
      · exact hsolvent h
      · exact h
  | burn offset => exact h
  | send =>
    obtain ⟨rfl, rfl⟩ := h
    exact .broke _

/-- **A step of the loop** writes some of what was owed, and owes the rest. -/
theorem answer_step {pc : Command} (hpc : pc ≠ .recv) {n : Next Command}
    (hstep : (clientLoop sock key pc).Steps s c s' n) (h : n.Owes ws more) :
    pc.Owes ((clientLoop sock key pc).op.told ++ ws) more := by
  cases pc with
  | recv => exact absurd rfl hpc
  | error code reason check =>
    obtain ⟨r, -, rfl⟩ := hstep
    exact before_cons (follows_of_ret h)
  | bankruptcy pc => exact owes_bankruptcy pc hstep h
  | buy docId pc =>
    obtain ⟨m, ⟨r, -, rfl⟩, rfl⟩ := Action.steps_map.1 hstep
    exact owes_buy docId pc r h
  | sell npcId docIds pc =>
    obtain ⟨m, ⟨r, -, rfl⟩, rfl⟩ := Action.steps_map.1 hstep
    exact owes_sell npcId docIds pc r h
  | dispose docId pc =>
    obtain ⟨m, ⟨r, -, rfl⟩, rfl⟩ := Action.steps_map.1 hstep
    exact owes_dispose docId pc r h
  | inventory pc =>
    obtain ⟨m, hm, rfl⟩ := Action.steps_map.1 hstep
    exact owes_inventory .listed (fun pc => rfl) hm h
  | rumor targetKey pc =>
    obtain ⟨m, hm, rfl⟩ := Action.steps_map.1 hstep
    exact owes_rumor targetKey pc hm h
  | payoff pc =>
    obtain ⟨m, hm, rfl⟩ := Action.steps_map.1 hstep
    exact owes_payoff pc hm h
  | chat text =>
    obtain ⟨r, -, rfl⟩ := hstep
    exact h
  | minigame passcode pc =>
    obtain ⟨m, hm, rfl⟩ := Action.steps_map.1 hstep
    exact owes_minigame passcode pc hm h
  | selfRaid pc =>
    obtain ⟨m, ⟨r, -, rfl⟩, rfl⟩ := Action.steps_map.1 hstep
    exact owes_selfRaid pc r h
  | leak pc => exact owes_leak pc hstep h
  | fakeRich pc =>
    obtain ⟨m, hm, rfl⟩ := Action.steps_map.1 hstep
    exact owes_fakeRich pc hm h
  | endround pc =>
    obtain ⟨m, hm, rfl⟩ := Action.steps_map.1 hstep
    obtain ⟨htold, hnext⟩ := fireRoundEndCountdown_next hm
    have htold' : (clientLoop sock key (.endround pc)).op.told = [] := htold
    rw [htold']
    rcases hnext with ⟨pc', rfl⟩ | rfl <;> exact h

/-- The dispatch owes the answer to the request. -/
theorem owes_dispatch (req : Request) (h : (Command.dispatch req).Owes ws more) :
    req.Answers ws more := by
  cases req with
  | chat text =>
    simp only [Command.dispatch] at h
    split_ifs at h with htext
    · rw [htext]
      exact h
    · exact (Request.Replies.chat text htext).answers h
  | sell npcId count docIds =>
    simp only [Command.dispatch] at h
    split_ifs at h with hcount
    · exact answers_error (by simp [Request.errors]) h
    · obtain ⟨hpos, hle⟩ := not_or.1 hcount
      exact h count docIds (not_le.1 hpos) (not_lt.1 hle)
  | login key => exact (Request.Replies.login key).answers h
  | other => exact Request.Replies.other.answers h
  | triggerEndround => exact Request.Replies.ended.answers h
  | triggerRaid | triggerLeak | triggerRich | inven => exact h
  | buy docId | dispose docId | rumor targetKey | minigameSubmit passcode => exact h

theorem follows_nil (check : Bool) : Follows check [] true := by
  cases check
  · exact .done
  · exact .solvent

theorem exists_answer (h : req.Replies rs) : ∃ ws more, req.Answers ws more :=
  ⟨rs ++ [], true, h.answers (follows_nil _)⟩

/-- What is owed can be written. -/
theorem exists_owed (pc : Command) : ∃ ws more, pc.Owes ws more := by
  have hbefore : ∀ rs : List Packet, Before rs Silent rs true :=
    fun rs => ⟨[], .done, (List.append_nil rs).symm⟩
  cases pc with
  | recv | chat text | endround pc => exact ⟨[], true, .done⟩
  | error code reason check => exact ⟨_, true, [], follows_nil check, rfl⟩
  | bankruptcy pc => exact ⟨[], true, .solvent⟩
  | buy docId pc =>
    cases pc with
    | announce => exact ⟨[], true, .solvent⟩
    | reply slot rec => exact ⟨_, true, [], .solvent, rfl⟩
    | _ => exact exists_answer (.bought docId 0 0 [])
  | sell npcId docIds pc =>
    cases pc with
    | announce => exact ⟨[], true, .done⟩
    | reply npc sold rec old => exact ⟨_, true, hbefore _⟩
    | dispose _ _ _ _ | lookup _ _ | credit _ _ _ _ | creditIndeterminate _ _ _ =>
      exact ⟨_, true, 0, 0, hbefore _⟩
    | _ => exact ⟨_, true, fun count ids hpos hle =>
        (Request.Replies.sold npcId count ids 0 0 hpos hle).answers (follows_nil _)⟩
  | dispose docId pc => exact exists_answer (.disposed docId)
  | inventory pc => exact exists_answer (.listed [] 0)
  | rumor targetKey pc =>
    cases pc with
    | leave code reason => exact ⟨_, true, [], follows_nil true, rfl⟩
    | _ => exact exists_answer (.spread targetKey [] 0)
  | payoff pc =>
    cases pc with
    | announce _ | goalUpdate _ | roundEnd _ => exact ⟨[], true, .done⟩
    | _ => exact exists_answer (.escaped [])
  | minigame passcode pc => exact exists_answer (.evaded passcode)
  | selfRaid pc =>
    cases pc with
    | launch => exact exists_answer (.raided [])
    | announce passcode serial => exact ⟨_, true, .inl (hbefore _)⟩
    | timer serial => exact ⟨[], true, .inl .done⟩
    | rollback => exact ⟨_, true, [], hbefore _⟩
  | leak pc => exact exists_answer .leaked
  | fakeRich pc =>
    cases pc with
    | note rec => exact ⟨_, true, [], hbefore _⟩
    | _ => exact exists_answer (.filled [] 0 [])

end Handlers

/-! ### The record -/

/-- What an operation of a handler adds to its dialogue. -/
def Op.talk (c : Choice) : Op → List (Talk Request Packet)
  | .packetRecv _ => (c.request.map .asked).toList
  | o => o.told.map .told

/-- The dialogue of a connection begins with its session. -/
def Thread.talk (c : Choice) (th : Thread) : List (Talk Request Packet) :=
  match th with
  | .session _ _ _ => th.action.elim [] fun a => a.op.talk c
  | _ => []

/-- What a step adds to the dialogues, with the position of its thread. -/
def talkAt (p : Server) : Label → List (ℕ × Talk Request Packet)
  | .run t c => ((p.threads[t]?.elim [] (·.talk c))).map (t, ·)
  | .env _ => []

/-- The server with a record of what its handlers read and write. -/
def talkServer : System (Server × List (ℕ × Talk Request Packet)) Label := server.withHistory talkAt

/-- The dialogue of a thread. -/
def talkOf (t : ℕ) (hist : List (ℕ × Talk Request Packet)) : List (Talk Request Packet) :=
  hist.filterMap fun e => if e.1 = t then some e.2 else none

/-- **What a handler has said and heard.** -/
structure Thread.Speaks (th : Thread) (tr : List (Talk Request Packet)) : Prop where
  /-- Who waits for a request has answered all the others. -/
  heard : ∀ sock key, th = .session sock key .recv → Dialogue Request.Answers tr
  /-- A session that is over has answered all its requests. -/
  gone : (∀ sock key pc, th ≠ .session sock key pc) → Dialogue.Over Request.Answers tr
  /-- In between, an answer is begun. -/
  begun : ∃ rest : List Packet, Dialogue.Over Request.Answers (tr ++ rest.map .told)

/-- What holds of the dialogue at every point of a thread. -/
def Thread.Converses (tr : List (Talk Request Packet)) : Thread → Prop
  | .session _ _ .recv => Dialogue Request.Answers tr
  | .session _ _ pc => Talking Request.Answers pc.Owes tr
  | .disconnect _ _ | .finished => Dialogue.Over Request.Answers tr
  | _ => tr = []

section Record

variable {tr : List (Talk Request Packet)} {hist ev : List (ℕ × Talk Request Packet)} {j : ℕ}

theorem talkOf_append (t : ℕ) (hist ev : List (ℕ × Talk Request Packet)) :
    talkOf t (hist ++ ev) = talkOf t hist ++ talkOf t ev := List.filterMap_append

theorem talkOf_map (t : ℕ) (tr : List (Talk Request Packet)) : talkOf t (tr.map (t, ·)) = tr := by
  simp [talkOf, List.filterMap_map]

theorem talkOf_map_of_ne (h : j ≠ t) (tr : List (Talk Request Packet)) :
    talkOf j (tr.map (t, ·)) = [] := by
  simp [talkOf, List.filterMap_map, Ne.symm h]

theorem talkOf_eq_nil (h : ∀ e ∈ hist, e.1 < t) : talkOf t hist = [] := by
  refine List.filterMap_eq_nil_iff.2 fun e he => ?_
  rw [if_neg (h e he).ne]

/-- After the dispatch of its last words a session is at any point. -/
theorem converses_of_talking {pc : Command} (h : Talking Request.Answers pc.Owes tr) :
    (Thread.session sock key pc).Converses tr := by
  cases pc with
  | recv =>
    have hdone : Dialogue Request.Answers (tr ++ ([] : List Packet).map .told) := h.answered .done
    rwa [List.map_nil, List.append_nil] at hdone
  | _ => exact h

theorem speaks_of_converses (h : th.Converses tr) : th.Speaks tr := by
  have hnone : Dialogue.Over Request.Answers tr →
      ∃ rest : List Packet, Dialogue.Over Request.Answers (tr ++ rest.map .told) :=
    fun h => ⟨[], by rwa [List.map_nil, List.append_nil]⟩
  have hstart : tr = [] → Dialogue.Over Request.Answers tr := by
    rintro rfl
    exact Dialogue.nil.ended
  refine ⟨?_, fun hgone => ?_, ?_⟩
  · rintro sock key rfl
    exact h
  · cases th with
    | session sock key pc => exact absurd rfl (hgone sock key pc)
    | disconnect _ _ | finished => exact h
    | _ => exact hstart h
  · cases th with
    | session sock key pc =>
      cases pc with
      | recv => exact hnone (Dialogue.ended h)
      | _ => exact Talking.exists_rest h (exists_owed _)
    | disconnect _ _ | finished => exact hnone h
    | _ => exact hnone (hstart h)

/-- Only the loop reads requests. -/
theorem talk_of_ne_recv {pc : Command} (hpc : pc ≠ .recv) :
    (clientLoop sock key pc).op.talk c = (clientLoop sock key pc).op.told.map .told := by
  cases pc with
  | recv => exact absurd rfl hpc
  | rumor k q =>
    cases q with
    | inventory q =>
      cases q with
      | list q => cases q <;> rfl
      | _ => rfl
    | _ => rfl
  | payoff q =>
    cases q with
    | purge e rec off q => cases q <;> rfl
    | roundEnd q => cases q <;> rfl
    | _ => rfl
  | minigame code q =>
    cases q with
    | burn serial q =>
      cases q with
      | purge q => cases q <;> rfl
      | _ => rfl
    | _ => rfl
  | fakeRich q =>
    cases q with
    | list rec q => cases q <;> rfl
    | _ => rfl
  | inventory q =>
    cases q with
    | list q => cases q <;> rfl
    | _ => rfl
  | bankruptcy q | buy _ q | sell _ _ q | dispose _ q | selfRaid q | leak q | endround q =>
    cases q <;> rfl
  | error _ _ _ | chat _ => rfl

/-- A step of a session goes on with its dialogue. -/
theorem converses_session {pc : Command} {r}
    (hr : (clientLoop sock key pc).op.exec s c = some (s', r))
    (h : (Thread.session sock key pc).Converses tr) :
    (Thread.afterCommand sock key ((clientLoop sock key pc).next r)).Converses
      (tr ++ (clientLoop sock key pc).op.talk c) := by
  by_cases hpc : pc = .recv
  · subst hpc
    have h : Dialogue Request.Answers tr := h
    cases hr
    simp only [clientLoop, Op.talk]
    cases c.request with
    | none =>
      rw [Option.map_none, Option.toList_none, List.append_nil]
      exact h.ended
    | some req => exact converses_of_talking (h.ask fun _ _ => owes_dispatch req)
  · have h : Talking Request.Answers pc.Owes tr := by
      cases pc with
      | recv => exact absurd rfl hpc
      | _ => exact h
    have howes : ∀ ws more, ((clientLoop sock key pc).next r).Owes ws more →
        pc.Owes ((clientLoop sock key pc).op.told ++ ws) more :=
      fun ws more => answer_step hpc ⟨r, hr, rfl⟩
    rw [talk_of_ne_recv hpc]
    generalize (clientLoop sock key pc).next r = n at howes ⊢
    cases n with
    | cont pc' => exact converses_of_talking (h.tell howes)
    | ret | fail => exact h.ended (by simpa using howes [] false ⟨rfl, rfl⟩)

/-- A thread that is no session has no dialogue. -/
theorem converses_other (ha : th.action = some a) (h : th.Converses tr)
    (hth : ∀ sock key pc, th ≠ .session sock key pc) (r : a.op.Ret) :
    (a.next r).Converses tr := by
  -- where a thread goes on, or ends
  have hresume : ∀ {α : Type} (f : α → Thread) (n : Next α), (∀ pc, (f pc).Converses tr) →
      Dialogue.Over Request.Answers tr → (Thread.resume f n).Converses tr := by
    intro α f n hf hover
    cases n with
    | cont pc => exact hf pc
    | _ => exact hover
  cases th with
  | session sock key pc => exact absurd rfl (hth sock key pc)
  | finished => cases ha
  | disconnect sock pc =>
    cases ha
    exact hresume _ _ (fun _ => h) h
  | login sock pc =>
    cases ha
    have h : tr = [] := h
    subst h
    simp only [Action.map]
    split
    · exact rfl
    · exact Dialogue.nil
    · exact Dialogue.nil.ended
  | event v pc =>
    cases ha
    exact h
  | main | npcSequence | leakRecovery | raidTimeout | roundEndTimer =>
    cases ha
    have h : tr = [] := h
    subst h
    exact hresume _ _ (fun _ => rfl) Dialogue.nil.ended

/-- **A step of a thread** goes on with its dialogue. -/
theorem converses_next {r : a.op.Ret} (ha : th.action = some a)
    (hr : a.op.exec s c = some (s', r)) (h : th.Converses tr) :
    (a.next r).Converses (tr ++ th.talk c) := by
  by_cases hth : ∃ sock key pc, th = .session sock key pc
  · obtain ⟨sock, key, pc, rfl⟩ := hth
    cases ha
    exact converses_session hr h
  · have hno : ∀ sock key pc, th ≠ .session sock key pc :=
      fun sock key pc heq => hth ⟨sock, key, pc, heq⟩
    have htalk : th.talk c = [] := by
      cases th with
      | session sock key pc => exact absurd rfl (hno sock key pc)
      | _ => rfl
    rw [htalk, List.append_nil]
    exact converses_other ha h hno r

/-- A new thread has said nothing. -/
theorem converses_spawned {o : Op} {r : o.Ret} {u : Thread} (h : u ∈ o.spawned r) :
    u.Converses [] := by
  obtain ⟨n, rfl⟩ | ⟨sock, -, rfl⟩ := spawned_start h
  · cases n <;> rfl
  · rfl

/-! ### Runs -/

/-- The invariant of a run. -/
structure Conversing (p : Server) (hist : List (ℕ × Talk Request Packet)) : Prop where
  bound : ∀ e ∈ hist, e.1 < p.threads.length
  each : ∀ (t : ℕ) (th : Thread), p.threads[t]? = some th → th.Converses (talkOf t hist)

theorem conversing_step {l : Label} (hI : Conversing p hist) (h : server.next p l = some p') :
    Conversing p' (hist ++ talkAt p l) := by
  cases l with
  | env n =>
    obtain rfl := Pool.next_env.1 h
    simp only [talkAt, List.append_nil]
    exact ⟨hI.bound, hI.each⟩
  | run t c =>
    obtain ⟨th, a, r, hth, ha, hr, hthreads⟩ := server_run h
    have htalk : talkAt p (.run t c) = (th.talk c).map (t, ·) := by
      simp only [talkAt, hth, Option.elim_some]
    have hlt : t < p.threads.length := (List.getElem?_eq_some_iff.1 hth).1
    have hlen : p.threads.length ≤ p'.threads.length := by
      rw [hthreads, List.length_append, List.length_set]
      exact Nat.le_add_right _ _
    rw [htalk]
    refine ⟨fun e he => ?_, fun j u hu => ?_⟩
    · rcases List.mem_append.1 he with he | he
      · exact (hI.bound e he).trans_le hlen
      · obtain ⟨_, -, rfl⟩ := List.mem_map.1 he
        exact hlt.trans_le hlen
    · rw [talkOf_append]
      rw [hthreads] at hu
      rcases Pool.place_step hu with ⟨hj, hu⟩ | ⟨rfl, rfl⟩ | ⟨hge, hu⟩
      · rw [talkOf_map_of_ne hj, List.append_nil]
        exact hI.each j u hu
      · rw [talkOf_map]
        exact converses_next ha hr (hI.each j th hth)
      · rw [talkOf_eq_nil fun e he => (hI.bound e he).trans_le hge,
          talkOf_map_of_ne (hlt.trans_le hge).ne', List.append_nil]
        exact converses_spawned hu

theorem conversing_boot (cwd : Dir) (files : Files) (users : UserDb) (clock : ℕ) :
    Conversing (boot cwd files users clock) [] := by
  refine ⟨by rintro _ ⟨⟩, fun t th hth => ?_⟩
  obtain rfl := List.mem_singleton.1 (List.mem_of_getElem? hth)
  exact rfl

theorem conversing_of_reach {cwd : Dir} {files : Files} {users : UserDb} {clock : ℕ}
    {q : Server × List (ℕ × Talk Request Packet)}
    (hq : talkServer.Reach System.anyStep (boot cwd files users clock, []) q) :
    Conversing q.1 q.2 :=
  hq.invariant (I := fun q => Conversing q.1 q.2) (conversing_boot cwd files users clock)
    fun q l q' _ hI _ hn => by
      obtain ⟨hn, hhist⟩ := System.withHistory_next.1 hn
      rw [hhist]
      exact conversing_step hI hn

/-- **Every handler answers every request**, one after the other, in every run of the server. -/
theorem speaks_of_reach {cwd : Dir} {files : Files} {users : UserDb} {clock : ℕ}
    {q : Server × List (ℕ × Talk Request Packet)}
    (hq : talkServer.Reach System.anyStep (boot cwd files users clock, []) q)
    (hth : q.1.threads[t]? = some th) : th.Speaks (talkOf t q.2) :=
  speaks_of_converses ((conversing_of_reach hq).each t th hth)

end Record

/-- Alice buys a document, and asks for it once more. -/
def secondBuyScript : List Label :=
  startUp ++ connect 5 ++ logIn 2 (Key.ofBytes (utf8 "alice")) ++
    receive 2 (.buy 47) :: steps 2 10 ++ receive 2 (.buy 47) :: steps 2 3

/-- Alice has been answered twice. -/
theorem speaks_alice : ∃ q th, talkServer.Reach System.anyStep (freshBoot, []) q ∧
    q.1.threads[2]? = some th ∧ talkOf 2 q.2 =
      turns (.buy 47) [.buyOk 47 200 (tagPersonal ||| tagCustomer) (utf8 "퇴직 요원 신상정보")] ++
      turns (.buy 47) [.error .docNotFound (utf8 "매물이 존재하지 않습니다.")] ∧
    th.Speaks (talkOf 2 q.2) := by
  obtain ⟨q, hq, hf⟩ := talkServer.exists_reach_of_any System.anyStep (freshBoot, [])
    secondBuyScript (fun q => q.1.threads[2]?.isSome && talkOf 2 q.2 ==
      turns (.buy 47) [.buyOk 47 200 (tagPersonal ||| tagCustomer) (utf8 "퇴직 요원 신상정보")] ++
      turns (.buy 47) [.error .docNotFound (utf8 "매물이 존재하지 않습니다.")]) (by decide +kernel)
  obtain ⟨hsome, htalk⟩ := Bool.and_eq_true_iff.1 hf
  obtain ⟨th, hth⟩ := Option.isSome_iff_exists.1 hsome
  exact ⟨q, th, hq, hth, eq_of_beq htalk, speaks_of_reach hq hth⟩

end UnderFlow
