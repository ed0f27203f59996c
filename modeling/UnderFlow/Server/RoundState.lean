import UnderFlow.Server.Effect

/-!
# The variables of a round

The goal, the time of the cap, the number of escapes and the bounded log of escapes are written
together under `g_round_mutex`, by any number of payoffs, by the countdown and by the reset.

* `RoundStep` : what an operation does to the round.
* `roundServer` : the server with a record of the accepted payoffs and the resets.
* `RoundKept` : the variables of the round as functions of the escapes since the last reset.
* `roundKept_run` : they are these functions in every state of every run.
-/

namespace UnderFlow

variable {s s' : Shared} {c : Choice} {r : Round} {now : ℕ} {key : Key} {money : ℤ}

/-! ### One operation -/

/-- **What an operation does to the round.** -/
inductive RoundStep (s : Shared) (o : Op) (s' : Shared) : Prop
  | same (ho : o.store ≠ some .round) (hround : s'.round = s.round)
  | payoff (key : Key) (money : ℤ) (ho : o = .roundPayoff key money)
      (hround : s'.round = (roundPayoff s.round s.clock key money).2)
  | busy (ho : o = .roundEndClaim) (hactive : s.round.endActive = true)
      (hround : s'.round = s.round)
  | claim (ho : o = .roundEndClaim) (hactive : s.round.endActive = false)
      (hround : s'.round = { s.round with endActive := true })
  | release (ho : o = .roundEndRelease) (hround : s'.round = { s.round with endActive := false })
  | reset (ho : o = .roundReset) (hround : s'.round = {})

theorem round_step {o : Op} {x : o.Ret} (h : o.exec s c = some (s', x)) : RoundStep s o s' := by
  by_cases hst : o.store = some .round
  · cases o <;> simp only [Op.store, Option.some.injEq, reduceCtorEq] at hst
    case roundPayoff key money =>
      cases h
      exact .payoff key money rfl rfl
    case roundEndClaim =>
      by_cases hactive : s.round.endActive = true
      · rw [Op.exec, if_pos hactive] at h
        cases h
        exact .busy rfl hactive rfl
      · rw [Op.exec, if_neg hactive] at h
        cases h
        exact .claim rfl (by simpa using hactive) rfl
    case roundEndRelease =>
      cases h
      exact .release rfl rfl
    case roundReset =>
      cases h
      exact .reset rfl rfl
  · exact .same hst ((exec_frame h).round hst)

/-- A payoff is refused and changes nothing, or it is one more escape. -/
theorem roundPayoff_cases (r : Round) (now : ℕ) (key : Key) (money : ℤ) :
    (money < r.goalMoney ∧ roundPayoff r now key money = (.error r.goalMoney, r)) ∨
      (r.goalMoney ≤ money ∧ ∃ next r', r'.escapedCount = r.escapedCount + 1 ∧
        roundPayoff r now key money = (.ok (r.goalMoney, next, r.escapedCount + 1), r')) := by
  by_cases h : money < r.goalMoney
  · exact .inl ⟨h, by rw [roundPayoff, if_pos h]⟩
  · refine .inr ⟨not_lt.1 h, ?_⟩
    rw [roundPayoff, if_neg h]
    exact ⟨_, _, rfl, rfl⟩

/-! ### The record -/

/-- An accepted payoff: the key, the balance that was checked, and the time. -/
structure Escapee where
  /-- The player. -/
  key : Key
  /-- The balance before the escape. -/
  money : ℤ
  /-- When. -/
  time : ℕ

/-- What happens to a round. -/
inductive RoundEvent where
  | escaped (e : Escapee)
  | reset

/-- What an operation adds to the record. -/
def Op.roundEvents (s : Shared) : Op → List RoundEvent
  | .roundPayoff key money =>
    match (UnderFlow.roundPayoff s.round s.clock key money).1 with
    | .ok _ => [.escaped ⟨key, money, s.clock⟩]
    | .error _ => []
  | .roundReset => [.reset]
  | _ => []

/-- What a step adds to the history. -/
def roundEventsAt (p : Server) (l : Label) : List RoundEvent :=
  (opAt p l).elim [] (Op.roundEvents p.shared)

/-- The server with a record of its escapes and resets. -/
def roundServer : System (Server × List RoundEvent) Label := server.withHistory roundEventsAt

/-- The escapes since the last reset, after one more event. -/
def RoundEvent.apply (es : List Escapee) : RoundEvent → List Escapee
  | escaped e => es ++ [e]
  | reset => []

/-- The escapes since the last reset. -/
def sinceReset (hist : List RoundEvent) : List Escapee := hist.foldl RoundEvent.apply []

/-! ### The goal and the log -/

/-- The goal after `n` escapes. -/
def goalAfter (n : ℕ) : ℤ := min (goalMoney + n * debtRaiseStep) debtCap

/-- The variables of the round, after the escapes `es`. -/
structure RoundKept (r : Round) (es : List Escapee) : Prop where
  count : r.escapedCount = es.length
  goal : r.goalMoney = goalAfter es.length
  cap : r.capReachedAt ≠ 0 ↔ r.goalMoney = debtCap
  /-- The time of the first escape that raised the goal to the cap. -/
  capTime : ∀ (i : ℕ) (e : Escapee), es[i]? = some e → goalAfter (i + 1) = debtCap →
    (∀ j ≤ i, goalAfter j ≠ debtCap) → r.capReachedAt = e.time
  log : ∀ (i : ℕ) (e : Escapee), es[i]? = some e → i < maxScoreEscaped →
    r.escapeLog[i]? = some ⟨e.key, goalAfter i, i + 1⟩
  /-- Nobody escapes with less than the goal. -/
  paid : ∀ (i : ℕ) (e : Escapee), es[i]? = some e → goalAfter i ≤ e.money

/-! ### The invariant -/

theorem goalAfter_succ (n : ℕ) : goalAfter (n + 1) = min (goalAfter n + debtRaiseStep) debtCap := by
  simp only [goalAfter, debtRaiseStep, debtCap]
  push_cast
  omega

/-- The cap is not left. -/
theorem goalAfter_succ_of_cap {n : ℕ} (h : goalAfter n = debtCap) :
    goalAfter (n + 1) = debtCap := by
  rw [goalAfter_succ, h]
  decide

/-- The variables of the round after the escapes `es`, with what keeps them so. -/
structure RoundOk (r : Round) (es : List Escapee) : Prop extends RoundKept r es where
  logLength : r.escapeLog.length = maxScoreEscaped
  /-- `0` is not a time. -/
  times : ∀ e ∈ es, e.time ≠ 0

theorem roundOk_nil : RoundOk {} [] where
  count := rfl
  goal := by decide
  cap := by decide
  capTime := by simp
  log := by simp
  paid := by simp
  logLength := by decide
  times := by simp

/-- The countdown writes none of these variables. -/
theorem RoundOk.endActive {es : List Escapee} (h : RoundOk r es) (b : Bool) :
    RoundOk { r with endActive := b } es :=
  ⟨⟨h.count, h.goal, h.cap, h.capTime, h.log, h.paid⟩, h.logLength, h.times⟩

/-- The entries of a list with one more at its end. -/
theorem getElem?_concat {α : Type*} {l : List α} {x y : α} {i : ℕ}
    (h : (l ++ [x])[i]? = some y) : (i < l.length ∧ l[i]? = some y) ∨ (i = l.length ∧ y = x) := by
  rcases lt_or_ge i l.length with hi | hi
  · rw [List.getElem?_append_left hi] at h
    exact .inl ⟨hi, h⟩
  · rw [List.getElem?_append_right hi] at h
    obtain ⟨hlt, rfl⟩ := List.getElem?_eq_some_iff.1 h
    rw [List.length_singleton] at hlt
    exact .inr ⟨by omega, by simp⟩

/-- **An escape keeps the round**, at any time but `0`. -/
theorem RoundOk.escape {es : List Escapee} (h : RoundOk r es) (hm : r.goalMoney ≤ money)
    (hnow : now ≠ 0) : RoundOk (roundPayoff r now key money).2 (es ++ [⟨key, money, now⟩]) := by
  have hgoal : min (r.goalMoney + debtRaiseStep) debtCap = goalAfter (es.length + 1) := by
    rw [h.goal, goalAfter_succ]
  have hcount : r.escapedCount + 1 - 1 = es.length := by rw [h.count]; omega
  obtain ⟨r', hr'⟩ : ∃ r', (roundPayoff r now key money).2 = r' := ⟨_, rfl⟩
  have hr := hr'
  rw [roundPayoff, if_neg (not_lt.2 hm)] at hr
  simp only [hgoal, hcount] at hr
  have hlen : (es ++ [(⟨key, money, now⟩ : Escapee)]).length = es.length + 1 := by simp
  have hescaped : r'.escapedCount = es.length + 1 := by rw [← hr, ← h.count]
  have hnext : r'.goalMoney = goalAfter (es.length + 1) := by rw [← hr]
  have htime : r'.capReachedAt =
      if goalAfter (es.length + 1) = debtCap ∧ r.capReachedAt = 0 then now else r.capReachedAt := by
    rw [← hr]
  have hlog : r'.escapeLog = if r.escapedCount + 1 ≤ maxScoreEscaped then
      r.escapeLog.set es.length ⟨key, r.goalMoney, r.escapedCount + 1⟩ else r.escapeLog := by
    rw [← hr]
  rw [hr']
  refine ⟨⟨by rw [hescaped, hlen], by rw [hnext, hlen], ?_, ?_, ?_, ?_⟩, ?_, ?_⟩
  · -- the time is written at the first escape that reaches the cap, and stays
    rw [htime, hnext]
    split_ifs with hif
    · exact iff_of_true hnow hif.1
    · constructor
      · intro hold
        rw [h.cap, h.goal] at hold
        exact goalAfter_succ_of_cap hold
      · intro hcap hold
        exact hif ⟨hcap, hold⟩
  · intro i e hi hcap hbefore
    rw [htime]
    rcases getElem?_concat hi with ⟨hlt, hi⟩ | ⟨rfl, rfl⟩
    · have hold := h.capTime i e hi hcap hbefore
      have hne : e.time ≠ 0 := h.times e (List.mem_of_getElem? hi)
      rw [if_neg (by rw [hold]; exact fun hif => hne hif.2), hold]
    · have hzero : r.capReachedAt = 0 := by
        by_contra hne
        exact hbefore es.length le_rfl (h.goal ▸ h.cap.1 hne)
      rw [if_pos ⟨hcap, hzero⟩]
  · intro i e hi hlt3
    rw [hlog]
    rcases getElem?_concat hi with ⟨hlt, hi⟩ | ⟨rfl, rfl⟩
    · split_ifs
      · rw [List.getElem?_set_ne (by omega)]
        exact h.log i e hi hlt3
      · exact h.log i e hi hlt3
    · rw [if_pos (by rw [h.count]; omega), List.getElem?_set_self (by rw [h.logLength]; exact hlt3),
        h.goal, h.count]
  · intro i e hi
    rcases getElem?_concat hi with ⟨-, hi⟩ | ⟨rfl, rfl⟩
    · exact h.paid i e hi
    · rwa [← h.goal]
  · rw [hlog]
    split_ifs
    · rw [List.length_set, h.logLength]
    · exact h.logLength
  · intro e he
    rcases List.mem_append.1 he with he | he
    · exact h.times e he
    · obtain rfl := List.mem_singleton.1 he
      exact hnow

/-- **One operation** keeps the variables of the round in step with the record. -/
theorem RoundOk.step {o : Op} {hist : List RoundEvent} (h : RoundOk s.round (sinceReset hist))
    (hclock : s.clock ≠ 0) (hstep : RoundStep s o s') :
    RoundOk s'.round (sinceReset (hist ++ o.roundEvents s)) := by
  have hquiet : o.roundEvents s = [] →
      sinceReset (hist ++ o.roundEvents s) = sinceReset hist := fun hev => by
    rw [hev, List.append_nil]
  cases hstep with
  | same ho hround =>
    rw [hround, hquiet]
    · exact h
    · cases o <;> first | rfl | exact absurd rfl ho
  | payoff key money ho hround =>
    subst ho
    rw [hround]
    rcases roundPayoff_cases s.round s.clock key money with ⟨-, hr⟩ | ⟨hm, next, r', -, hr⟩
    · rw [hquiet (by simp [Op.roundEvents, hr]), hr]
      exact h
    · have hev : Op.roundEvents s (.roundPayoff key money) = [.escaped ⟨key, money, s.clock⟩] := by
        simp [Op.roundEvents, hr]
      rw [hev, sinceReset, List.foldl_concat]
      exact h.escape hm hclock
  | busy ho _ hround =>
    rw [hround, hquiet (by rw [ho]; rfl)]
    exact h
  | claim ho _ hround =>
    rw [hround, hquiet (by rw [ho]; rfl)]
    exact h.endActive true
  | release ho hround =>
    rw [hround, hquiet (by rw [ho]; rfl)]
    exact h.endActive false
  | reset ho hround =>
    subst ho
    have hev : Op.roundEvents s .roundReset = [.reset] := rfl
    rw [hround, hev, sinceReset, List.foldl_concat]
    exact roundOk_nil

/-! ### Runs -/

/-- **The variables of the round are what its escapes make them**, in every run of the server from
any data directory, at any time but `0`. -/
theorem roundKept_run {cwd : Dir} {files : Files} {users : UserDb} {clock : ℕ} (hclock : clock ≠ 0)
    {p : Server} {hist : List RoundEvent}
    (h : roundServer.Reach System.anyStep (boot cwd files users clock, []) (p, hist)) :
    RoundKept p.shared.round (sinceReset hist) := by
  have hinv : p.shared.clock ≠ 0 ∧ RoundOk p.shared.round (sinceReset hist) := by
    refine h.invariant (I := fun q => q.1.shared.clock ≠ 0 ∧
      RoundOk q.1.shared.round (sinceReset q.2))
      ⟨hclock, roundOk_nil⟩ ?_
    rintro ⟨p, hist⟩ l ⟨p', hist'⟩ - ⟨hc, hok⟩ - hn
    obtain ⟨hn, rfl⟩ := System.withHistory_next.1 hn
    rcases server_step_cases hn with ⟨o, r, ho, hr⟩ | ⟨ho, seconds, hs⟩
    · refine ⟨by rw [(exec_frame hr).clock]; exact hc, ?_⟩
      simp only [roundEventsAt, ho, Option.elim_some]
      exact hok.step hc (round_step hr)
    · have hround : p'.shared.round = p.shared.round := by rw [hs]
      have htime : p'.shared.clock = p.shared.clock + seconds := by rw [hs]
      simp only [roundEventsAt, ho, Option.elim_none, List.append_nil, hround, htime]
      exact ⟨fun hz => hc (Nat.eq_zero_of_add_eq_zero_right hz), hok⟩
  exact hinv.2.toRoundKept

/-- Alice fills her purse and pays off. -/
def firstEscapeScript : List Label :=
  startUp ++ connect 5 ++ logIn 2 (Key.ofBytes (utf8 "alice")) ++ receive 2 .triggerRich ::
    steps 2 6 ++ receive 2 (.chat (utf8 "/payoff")) :: steps 2 2

/-- A run with an escape. -/
theorem roundKept_alice : ∃ q, roundServer.Reach System.anyStep (freshBoot, []) q ∧
    (sinceReset q.2).length = 1 ∧ RoundKept q.1.shared.round (sinceReset q.2) := by
  obtain ⟨q, hq, hlen⟩ := System.exists_reach_of_any (A := roundServer) System.anyStep
    (freshBoot, []) firstEscapeScript (fun q => (sinceReset q.2).length == 1) (by decide +kernel)
  exact ⟨q, hq, eq_of_beq hlen, roundKept_run (by decide) hq⟩

end UnderFlow
