import UnderFlow.Data.Shuffle
import UnderFlow.Server.Alone
import UnderFlow.Server.Rounds

/-!
# The scoreboard

What `fire_round_end_countdown` puts into the scoreboard of a round: the players that remain, in
the order of a selection sort cut off at the size of the packet, and the first escapes.

* `maxIdx_spec`, `selectionSort_perm`, `selectionSort_sorted` : the sort.
* `scoreboardShown` : **the scoreboard is correct**, of all connected users but those that could not
  be looked up.
-/

namespace UnderFlow

/-- A connected user that remains: not among the logged escapes, and with a record that is not
burned. -/
def playerOf (users : UserDb) (escaped : List ScoreEscaped) (key : Key) : Option ScoreRemaining :=
  if escaped.any fun e => e.key == key then none
  else
    match userdbFind users key with
    | some (rec, _) => if userdbIsBurned rec then none else some ⟨key, rec.money⟩
    | none => none

/-- The players that remain among the users of some keys. -/
def playersOf (s : Shared) (keys : List Key) : List ScoreRemaining :=
  keys.filterMap (playerOf s.users (roundLog s.round))

/-- **A correct scoreboard** of the users with the given keys. -/
structure ScoreboardOf (s : Shared) (keys : List Key) (escaped : List ScoreEscaped)
    (remaining : List ScoreRemaining) : Prop where
  /-- The first entries of the log, in the order of the escapes. -/
  escaped_eq : escaped = s.round.escapeLog.take (min s.round.escapedCount maxScoreEscaped)
  escaped_le : escaped.length ≤ maxScoreEscaped
  /-- Who is listed is not poorer than who is left out. -/
  richest : ∃ rest, (remaining ++ rest).Perm (playersOf s keys) ∧
    ∀ r ∈ remaining, ∀ o ∈ rest, o.money ≤ r.money
  count : remaining.length = min maxScoreRemaining (playersOf s keys).length
  sorted : remaining.Pairwise fun r o => o.money ≤ r.money
  once : keys.Nodup → (remaining.map ScoreRemaining.key).Nodup
  /-- The players fit into the array in which they are sorted. -/
  room : (playersOf s keys).length ≤ s.clients.length

/-- The scoreboard that an operation broadcasts. -/
def Made.scoreboard (m : Made) : Option (List ScoreEscaped × List ScoreRemaining) :=
  match m.op with
  | .broadcast (.scoreboard _ escaped remaining) => some (escaped, remaining)
  | _ => none

/-- No lookup of the run failed to read `users.dat`. -/
def ReadsUsers (log : List Made) : Prop :=
  ∀ m ∈ log, ∀ key, m.op = .userdbFind key → m.choice.ok = true

/-- A lookup of the key failed to read `users.dat`. -/
def LookupFailed (log : List Made) (key : Key) : Prop :=
  ∃ m ∈ log, m.op = .userdbFind key ∧ m.choice.ok = false

variable {l rs : List ScoreRemaining} {r x : ScoreRemaining} {best i k n : ℕ} {money : ℤ}

/-! ### The sort -/

/-- **One scan** finds the place of a largest balance. -/
theorem maxIdx_spec (l : List ScoreRemaining) (best : ℕ) (money : ℤ) (i : ℕ) :
    (maxIdx l best money i = best ∧ ∀ o ∈ l, o.money ≤ money) ∨
      ∃ k x, l[k]? = some x ∧ maxIdx l best money i = i + k ∧ money < x.money ∧
        ∀ o ∈ l, o.money ≤ x.money := by
  induction l generalizing best money i with
  | nil => exact .inl ⟨rfl, by simp⟩
  | cons r rs ih =>
    rw [maxIdx]
    split_ifs with hlt
    · rcases ih i r.money (i + 1) with ⟨heq, hle⟩ | ⟨k, x, hx, heq, hmore, hle⟩
      · exact .inr ⟨0, r, rfl, heq, hlt, List.forall_mem_cons.2 ⟨le_rfl, hle⟩⟩
      · refine .inr ⟨k + 1, x, hx, by omega, hlt.trans hmore, ?_⟩
        exact List.forall_mem_cons.2 ⟨hmore.le, hle⟩
    · rcases ih best money (i + 1) with ⟨heq, hle⟩ | ⟨k, x, hx, heq, hmore, hle⟩
      · exact .inl ⟨heq, List.forall_mem_cons.2 ⟨not_lt.1 hlt, hle⟩⟩
      · refine .inr ⟨k + 1, x, hx, by omega, hmore, ?_⟩
        exact List.forall_mem_cons.2 ⟨(not_lt.1 hlt).trans hmore.le, hle⟩

/-- **One pass** puts a richest entry to the front and keeps the others. -/
theorem selectionSort_pass (n : ℕ) (r : ScoreRemaining) (rs : List ScoreRemaining) :
    ∃ x rest, selectionSort (n + 1) (r :: rs) = x :: selectionSort n rest ∧
      (x :: rest).Perm (r :: rs) ∧ ∀ o ∈ rest, o.money ≤ x.money := by
  rcases maxIdx_spec rs 0 r.money 1 with ⟨heq, hle⟩ | ⟨k, x, hx, heq, hmore, hle⟩
  · exact ⟨r, rs, by rw [selectionSort, heq], List.Perm.refl _, hle⟩
  · refine ⟨x, rs.set k r, ?_, ?_, ?_⟩
    · rw [selectionSort, heq, Nat.add_comm]
      show rs.getD k r :: _ = _
      rw [List.getD_eq_getElem?_getD, hx, Option.getD_some]
    · refine exchange_perm (i := 0) (j := k + 1) ?_
      rw [exchange, List.getElem?_cons_zero, List.getElem?_cons_succ, hx]
      rfl
    · intro o ho
      rcases List.mem_or_eq_of_mem_set ho with hmem | rfl
      · exact hle o hmem
      · exact hmore.le

theorem selectionSort_perm (h : l.length ≤ n) : (selectionSort n l).Perm l := by
  induction n generalizing l with
  | zero => rw [List.length_eq_zero_iff.1 (Nat.le_zero.1 h)]; exact List.Perm.nil
  | succ n ih =>
    cases l with
    | nil => exact List.Perm.nil
    | cons r rs =>
      obtain ⟨x, rest, heq, hperm, -⟩ := selectionSort_pass n r rs
      have hlen : rest.length = rs.length := Nat.succ.inj hperm.length_eq
      rw [heq]
      exact ((ih (by rw [hlen]; exact Nat.le_of_succ_le_succ h)).cons x).trans hperm

theorem selectionSort_sorted (h : l.length ≤ n) :
    (selectionSort n l).Pairwise fun r o => o.money ≤ r.money := by
  induction n generalizing l with
  | zero => rw [List.length_eq_zero_iff.1 (Nat.le_zero.1 h)]; exact List.Pairwise.nil
  | succ n ih =>
    cases l with
    | nil => exact List.Pairwise.nil
    | cons r rs =>
      obtain ⟨x, rest, heq, hperm, hle⟩ := selectionSort_pass n r rs
      have hlen : rest.length = rs.length := Nat.succ.inj hperm.length_eq
      have hrest : rest.length ≤ n := by rw [hlen]; exact Nat.le_of_succ_le_succ h
      rw [heq]
      refine List.pairwise_cons.2 ⟨fun o ho => hle o ?_, ih hrest⟩
      exact (selectionSort_perm hrest).mem_iff.1 ho

/-! ### The players -/

variable {s s' : Shared} {users : UserDb} {escaped : List ScoreEscaped} {key : Key}
  {keys todo : List Key}
  {rank : List ScoreRemaining} {cs : List Choice} {log : List Made} {out : Ended Unit}
    {text : Bytes}

theorem key_of_playerOf (h : playerOf users escaped key = some r) : r.key = key := by
  unfold playerOf at h
  split_ifs at h
  split at h
  · split_ifs at h
    cases h
    rfl
  · cases h

theorem keys_of_players :
    ((keys.filterMap (playerOf users escaped)).map ScoreRemaining.key).Sublist keys := by
  induction keys with
  | nil => exact List.Sublist.refl []
  | cons key keys ih =>
    rw [List.filterMap_cons]
    rcases hplayer : playerOf users escaped key with _ | r
    · exact ih.cons key
    · rw [List.map_cons, key_of_playerOf hplayer]
      exact ih.cons_cons key

/-- The connected users are the keys of the slots in use. -/
theorem mem_clientKeys {cs : List Client} :
    key ∈ clientKeys cs ↔ ∃ client ∈ cs, client.sock ≠ 0 ∧ client.key ≠ Key.empty ∧
      client.key = key := by
  simp [clientKeys, and_assoc]

theorem clientKeys_length (cs : List Client) : (clientKeys cs).length ≤ cs.length := by
  rw [clientKeys, List.length_map]
  exact List.length_filter_le _ _

/-- **The scoreboard** of the players found among some keys. -/
theorem scoreboardOf_sort (hsub : keys.Sublist (clientKeys s.clients)) :
    ScoreboardOf s keys (roundLog s.round)
      ((selectionSort (playersOf s keys).length (playersOf s keys)).take maxScoreRemaining) := by
  have hperm := selectionSort_perm (l := playersOf s keys) le_rfl
  have hsorted := selectionSort_sorted (l := playersOf s keys) le_rfl
  have hkeys : ((playersOf s keys).map ScoreRemaining.key).Sublist keys := keys_of_players
  refine ⟨rfl, ?_, ?_, ?_, ?_, fun hnd => ?_, ?_⟩
  · rw [roundLog, List.length_take]
    omega
  · refine ⟨(selectionSort (playersOf s keys).length (playersOf s keys)).drop maxScoreRemaining, ?_,
      ?_⟩
    · rw [List.take_append_drop]
      exact hperm
    · rw [← List.take_append_drop maxScoreRemaining (selectionSort _ _), List.pairwise_append]
        at hsorted
      exact hsorted.2.2
  · rw [List.length_take, hperm.length_eq]
  · exact hsorted.sublist (List.take_sublist _ _)
  · have hall := (hperm.map ScoreRemaining.key).nodup_iff.2 (hnd.sublist hkeys)
    exact hall.sublist ((List.take_sublist _ _).map _)
  · have hle := hkeys.length_le
    rw [List.length_map] at hle
    exact hle.trans (hsub.length_le.trans (clientKeys_length _))

/-! ### The countdown -/

theorem readsUsers_cons {m : Made} (h : ReadsUsers (m :: log)) : ReadsUsers log :=
  fun m' hm => h m' (List.mem_cons_of_mem _ hm)

theorem lookupFailed_cons {m : Made} (h : LookupFailed log key) : LookupFailed (m :: log) key := by
  obtain ⟨m', hm, hop, hfail⟩ := h
  exact ⟨m', List.mem_cons_of_mem _ hm, hop, hfail⟩

/-- Who was answered, or missed for a failure, after one more answer. -/
theorem missing_cons {answered todo : List Key}
    (h : ∀ k ∈ todo, k ∈ answered ∨ LookupFailed log k) (key : Key) :
    ∀ k ∈ key :: todo, k ∈ key :: answered ∨ LookupFailed log k := by
  intro k hk
  rcases List.mem_cons.1 hk with rfl | hk
  · exact .inl List.mem_cons_self
  · exact (h k hk).imp_left (List.mem_cons_of_mem _)

/-- **The lookups** collect the players among the keys whose lookup was answered. -/
theorem run_lookups
    (h : runAlone (fireRoundEndCountdown text) cs s (RoundEnd.lookupNext escaped rank todo) =
      some (log, s', out)) :
    ∃ answered cs' log', answered.Sublist todo ∧ (ReadsUsers log → answered = todo) ∧
      (∀ k ∈ todo, k ∈ answered ∨ LookupFailed log k) ∧
      runAlone (fireRoundEndCountdown text) cs' s
        (.scoreboard escaped (rank ++ answered.filterMap (playerOf s.users escaped))) =
          some (log', s', out) ∧
      log.filterMap Made.scoreboard = log'.filterMap Made.scoreboard := by
  induction todo generalizing rank cs log with
  | nil =>
    refine ⟨[], cs, log, List.Sublist.refl [], fun _ => rfl, nofun, ?_, rfl⟩
    rw [List.filterMap_nil, List.append_nil]
    exact h
  | cons key todo ih =>
    rw [RoundEnd.lookupNext] at h
    split_ifs at h with hescaped
    · -- a logged escapee is not looked up
      obtain ⟨answered, cs', log', hsub, hreads, hmiss, hrun, hlog⟩ := ih h
      refine ⟨key :: answered, cs', log', hsub.cons_cons key, fun hr => by rw [hreads hr],
        missing_cons hmiss key, ?_, hlog⟩
      have hnone : playerOf s.users escaped key = none := by rw [playerOf, if_pos hescaped]
      rw [List.filterMap_cons_none hnone]
      exact hrun
    · obtain ⟨c, cs₁, s₁, a, log₁, rfl, rfl, hexec, hrest⟩ := runAlone_eq_some.1 h
      obtain ⟨hs, ⟨-, ⟨rec, offset⟩, hfind, rfl⟩ | ⟨hnone, rfl⟩⟩ := exec_find hexec
      · have hplayer : playerOf s.users escaped key =
            if userdbIsBurned rec then none else some ⟨key, rec.money⟩ := by
          rw [playerOf, if_neg hescaped, hfind]
        by_cases hburned : userdbIsBurned rec = true
        · have hnext : runAlone (fireRoundEndCountdown text) cs₁ s
              (RoundEnd.lookupNext escaped rank todo) = some (log₁, s', out) := by
            simpa [fireRoundEndCountdown, RunRest, hburned, hs] using hrest
          obtain ⟨answered, cs', log', hsub, hreads, hmiss, hrun, hlog⟩ := ih hnext
          refine ⟨key :: answered, cs', log', hsub.cons_cons key,
            fun hr => by rw [hreads (readsUsers_cons hr)],
            missing_cons (fun k hk => (hmiss k hk).imp_right lookupFailed_cons) key, ?_, hlog⟩
          rw [if_pos hburned] at hplayer
          rw [List.filterMap_cons_none hplayer]
          exact hrun
        · have hnext : runAlone (fireRoundEndCountdown text) cs₁ s
              (RoundEnd.lookupNext escaped (rank ++ [⟨key, rec.money⟩]) todo) =
                some (log₁, s', out) := by
            simpa [fireRoundEndCountdown, RunRest, hburned, hs] using hrest
          obtain ⟨answered, cs', log', hsub, hreads, hmiss, hrun, hlog⟩ := ih hnext
          refine ⟨key :: answered, cs', log', hsub.cons_cons key,
            fun hr => by rw [hreads (readsUsers_cons hr)],
            missing_cons (fun k hk => (hmiss k hk).imp_right lookupFailed_cons) key, ?_, hlog⟩
          rw [if_neg hburned] at hplayer
          rw [List.filterMap_cons_some hplayer, ← List.singleton_append, ← List.append_assoc]
          exact hrun
      · rw [hs] at hrest
        obtain ⟨answered, cs', log', hsub, hreads, hmiss, hrun, hlog⟩ := ih hrest
        by_cases hok : c.ok = true
        · refine ⟨key :: answered, cs', log', hsub.cons_cons key,
            fun hr => by rw [hreads (readsUsers_cons hr)],
            missing_cons (fun k hk => (hmiss k hk).imp_right lookupFailed_cons) key, ?_, hlog⟩
          have hplayer : playerOf s.users escaped key = none := by
            rw [playerOf, if_neg hescaped, hnone hok]
          rw [List.filterMap_cons_none hplayer]
          exact hrun
        · refine ⟨answered, cs', log', hsub.cons key, fun hr => ?_, fun k hk => ?_, hrun, hlog⟩
          · exact absurd (hr _ List.mem_cons_self key rfl) hok
          · rcases List.mem_cons.1 hk with rfl | hk
            · exact .inr ⟨_, List.mem_cons_self, rfl, by simpa using hok⟩
            · exact (hmiss k hk).imp_right lookupFailed_cons

/-- The scoreboard is broadcast once, and nothing after it is one. -/
theorem run_scoreboard (h : runAlone (fireRoundEndCountdown text) cs s (.scoreboard escaped rank) =
      some (log, s', out)) : log.filterMap Made.scoreboard =
        [(escaped, (selectionSort rank.length rank).take maxScoreRemaining)] := by
  obtain ⟨c, cs, s₁, _, log, rfl, rfl, -, hrest⟩ := runAlone_eq_some.1 h
  obtain ⟨c, cs, s₁, _, log, rfl, rfl, -, hrest⟩ := runAlone_eq_some.1 hrest
  obtain ⟨c, cs, s₁, created, log, rfl, rfl, -, hrest⟩ := runAlone_eq_some.1 hrest
  cases created with
  | true =>
    obtain ⟨rfl, -, -⟩ := hrest
    rfl
  | false =>
    obtain ⟨c, cs, s₁, _, log, rfl, rfl, -, rfl, -, -⟩ := runAlone_eq_some.1 hrest
    rfl

/-- What a countdown that ran alone shows: nothing when another has begun, and otherwise one correct
scoreboard of all connected users, save those whose lookup failed. -/
def ScoreboardShown (s : Shared) (log : List Made) : Prop :=
  if s.round.endActive then log.filterMap Made.scoreboard = []
  else
    ∃ answered escaped remaining, log.filterMap Made.scoreboard = [(escaped, remaining)] ∧
      answered.Sublist (clientKeys s.clients) ∧
      (ReadsUsers log → answered = clientKeys s.clients) ∧
      (∀ key, (∃ client ∈ s.clients, client.sock ≠ 0 ∧ client.key ≠ Key.empty ∧ client.key = key) →
        key ∈ answered ∨ LookupFailed log key) ∧
      ScoreboardOf s answered escaped remaining

theorem scoreboardShown_of_run
    (h : runAlone (fireRoundEndCountdown text) cs s .claim = some (log, s', out)) :
    ScoreboardShown s log := by
  unfold ScoreboardShown
  obtain ⟨c, cs, s₁, first, log, rfl, rfl, hexec, hrest⟩ := runAlone_eq_some.1 h
  simp only [fireRoundEndCountdown, Op.exec] at hexec
  split_ifs at hexec ⊢ with hactive
  · cases hexec
    obtain ⟨rfl, -, -⟩ := hrest
    rfl
  · cases hexec
    obtain ⟨c, cs, s₁, _, log, rfl, rfl, ⟨⟩, hrest⟩ := runAlone_eq_some.1 hrest
    obtain ⟨c, cs, s₁, _, log, rfl, rfl, ⟨⟩, hrest⟩ := runAlone_eq_some.1 hrest
    obtain ⟨answered, cs', log', hsub, hreads, hmiss, hrun, hlog⟩ := run_lookups hrest
    have hboard := run_scoreboard hrun
    refine ⟨answered, roundLog s.round, _, hlog.trans hboard, hsub, fun hr => ?_,
      fun key hkey => ?_, ?_⟩
    · exact hreads (readsUsers_cons (readsUsers_cons (readsUsers_cons hr)))
    · refine (hmiss key (mem_clientKeys.2 hkey)).imp_right fun h => ?_
      exact lookupFailed_cons (lookupFailed_cons (lookupFailed_cons h))
    · exact scoreboardOf_sort hsub

/-! ### The countdown ends -/

theorem ends_release : EndsWithin (fireRoundEndCountdown text) 1 s .release :=
  endsWithin_succ fun _ => ⟨_, (), rfl, fun _ h => nomatch h⟩

theorem ends_timer : EndsWithin (fireRoundEndCountdown text) 2 s .timer :=
  endsWithin_succ fun c => ⟨s, c.ok, rfl, fun pc' h => by
    cases hok : c.ok <;> rw [hok] at h <;> cases h
    exact ends_release⟩

theorem ends_scoreboard : EndsWithin (fireRoundEndCountdown text) 4 s (.scoreboard escaped rank) :=
  endsWithin_succ fun _ => ⟨s, (), rfl, fun _ h => by
    cases h
    exact endsWithin_succ fun _ => ⟨s, (), rfl, fun _ h => by cases h; exact ends_timer⟩⟩

theorem ends_lookups : EndsWithin (fireRoundEndCountdown text) (todo.length + 4) s
    (RoundEnd.lookupNext escaped rank todo) := by
  induction todo generalizing rank with
  | nil => exact endsWithin_mono ends_scoreboard (Nat.le_add_left ..)
  | cons key todo ih =>
    rw [RoundEnd.lookupNext, List.length_cons, Nat.succ_add]
    split_ifs with hescaped
    · exact endsWithin_mono ih (Nat.le_succ _)
    · refine endsWithin_succ fun c => ?_
      rcases hexec : (Op.userdbFind key).exec s c with _ | ⟨s₁, a⟩
      · simp only [Op.exec] at hexec
        split at hexec <;> cases hexec
      · obtain ⟨rfl, ⟨-, ⟨rec, offset⟩, -, rfl⟩ | ⟨-, rfl⟩⟩ := exec_find hexec
        · refine ⟨s₁, _, hexec, fun pc' h => ?_⟩
          simp only [fireRoundEndCountdown] at h
          split_ifs at h <;> cases h <;> exact ih
        · refine ⟨s₁, _, hexec, fun pc' h => ?_⟩
          cases h
          exact ih

theorem ends_claim (text : Bytes) (s : Shared) :
    EndsWithin (fireRoundEndCountdown text) (s.clients.length + 7) s .claim := by
  refine endsWithin_succ (n := s.clients.length + 6) fun c => ?_
  by_cases hactive : s.round.endActive = true
  · exact ⟨s, false, by simp [fireRoundEndCountdown, Op.exec, hactive], fun _ h => nomatch h⟩
  · refine ⟨_, true, by simp [fireRoundEndCountdown, Op.exec, hactive]; rfl, fun _ h => ?_⟩
    cases h
    refine endsWithin_succ fun _ => ⟨_, _, rfl, fun _ h => ?_⟩
    cases h
    refine endsWithin_succ fun _ => ⟨_, _, rfl, fun _ h => ?_⟩
    cases h
    exact endsWithin_mono ends_lookups (Nat.add_le_add_right (clientKeys_length _) 4)

/-- **The scoreboard of a round is correct**, for all connected users, records and escapes: the
countdown comes to its end, and shows one. -/
theorem scoreboardShown (text : Bytes) (s : Shared) (choose : ℕ → Choice) :
    ∃ n log s' out, runAlone (fireRoundEndCountdown text) ((List.range n).map choose) s .claim =
      some (log, s', out) ∧ ScoreboardShown s log := by
  obtain ⟨log, s', out, hrun⟩ := ends_claim text s
    ((List.range (s.clients.length + 7)).map choose) (by simp)
  exact ⟨_, log, s', out, hrun, scoreboardShown_of_run hrun⟩

end UnderFlow
