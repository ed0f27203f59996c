import UnderFlow.Client.Shelves
import UnderFlow.LTS.Bulletin

/-!
# What a client shows

* `Packet.notice` : what a packet says about a listing.
* `UiClient.Follows` : the client shows what it was told to show, each listing once.
* `follows_run` : after every orderly stream of packets it does.
-/

namespace UnderFlow

/-- What a packet says about a listing. -/
def Packet.notice : Packet → Option (Notice ℤ)
  | .marketSpawn d _ _ _ => some (.shown d)
  | .marketRemove d => some (.removed d)
  | _ => none

/-- The notices of a stream of packets. -/
def notices (pkts : List Packet) : List (Notice ℤ) := pkts.filterMap Packet.notice

theorem notices_concat (pkts : List Packet) (pkt : Packet) :
    notices (pkts ++ [pkt]) = notices pkts ++ pkt.notice.toList := by
  rw [notices, List.filterMap_append, notices]
  rcases hn : pkt.notice with _ | n <;> simp [hn]

/-- The ids of the listings the client shows. -/
def ClientState.shownIds (st : ClientState) : List ℤ := st.listings.map (·.docId)

/-- The client shows only what it was told to show and not told to remove. -/
structure UiClient.Follows (c : UiClient) (told : List (Notice ℤ)) : Prop where
  nodup : c.state.shownIds.Nodup
  shown : ∀ d ∈ c.state.shownIds, .shown d ∈ told
  kept : ∀ d ∈ c.state.shownIds, .removed d ∉ told

variable {c : UiClient} {pkt : Packet} {told : List (Notice ℤ)} {d : ℤ}

theorem Orderly.of_concat {ι : Type} {l : List (Notice ι)} {n : Notice ι}
    (h : Orderly (l ++ [n])) : Orderly l ∧ ∀ d, n = .shown d → ∀ m ∈ l, m.item ≠ d := by
  refine ⟨fun before e after heq => h before e (after ++ [n]) (by simp [heq]), ?_⟩
  exact h l n [] rfl

/-- What one packet does to the ids shown. -/
inductive ShownStep (ids : List ℤ) (pkt : Packet) (ids' : List ℤ) : Prop
  | same (hn : ∀ d, pkt.notice ≠ some (.removed d)) (h : ids' = ids)
  | empty (h : ids' = [])
  | spawn (d : ℤ) (hn : pkt.notice = some (.shown d)) (h : ids' = ids ++ [d])
  | remove (d : ℤ) (hn : pkt.notice = some (.removed d)) (h : ids'.Perm (ids.erase d))

theorem shownIds_remove {st : ClientState} (h : st.Shelved) (d : ℤ) :
    (st.onMarketRemove d).shownIds.Perm (st.shownIds.erase d) := by
  refine ((ClientState.listings_marketRemove h d).map _).trans ?_
  rw [ClientState.shownIds, List.erase_eq_eraseP, List.eraseP_map]
  have heq : ((fun a => d == a) ∘ fun m : UiMarket => m.docId) = fun m => m.docId == d := by
    funext m
    exact BEq.comm
  rw [heq]

theorem shown_step (h : c.state.Shelved) (hmode : c.mode ≠ .gameOver) :
    ShownStep c.state.shownIds pkt (c.receive pkt.received).state.shownIds := by
  unfold UiClient.receive
  rw [if_neg hmode]
  cases pkt with
  | chat sender text =>
    obtain ⟨news, chat, count, heq⟩ := c.state.onChat_boards c.mode sender text
    refine .same (by rintro _ ⟨⟩) ?_
    show (c.state.onChat c.mode sender text).shownIds = _
    rw [heq]
    rfl
  | gameOver message =>
    simp only [Packet.received]
    by_cases hmark : roundResetMark.isPrefixOf message = true
    · rw [if_pos hmark]
      exact .empty rfl
    · rw [if_neg hmark]
      exact .same (by rintro _ ⟨⟩) rfl
  | marketSpawn d t p n =>
    have hl := ClientState.listings_marketSpawn h d t p n
    simp only [Packet.received, ClientState.shownIds]
    rw [hl]
    split_ifs
    · exact .spawn d rfl (by simp)
    · exact .same (by rintro _ ⟨⟩) rfl
  | marketRemove d => exact .remove d rfl (shownIds_remove h d)
  | npcSpawn n t b =>
    simp only [Packet.received, ClientState.onNpcSpawn]
    split_ifs <;> exact .same (by rintro _ ⟨⟩) rfl
  | npcDespawn n =>
    simp only [Packet.received, ClientState.onNpcDespawn]
    split <;> exact .same (by rintro _ ⟨⟩) rfl
  | newsLeak t dur headline =>
    refine .same (by rintro _ ⟨⟩) ?_
    simp only [Packet.received, ClientState.shownIds, ClientState.listings_newsLeak h, List.map_map]
    refine List.map_congr_left fun m _ => ?_
    simp only [Function.comp_apply]
    split_ifs <;> rfl
  | newsRecover t =>
    refine .same (by rintro _ ⟨⟩) ?_
    simp only [Packet.received, ClientState.shownIds, ClientState.listings_newsRecover h,
      List.map_map]
    rfl
  | _ => exact .same (by rintro _ ⟨⟩) rfl

/-- **One more packet** of an orderly stream. -/
theorem UiClient.Follows.step (h : c.Follows told) (hshelf : c.state.Shelved)
    (hmode : c.mode ≠ .gameOver) (ho : Orderly (told ++ pkt.notice.toList)) :
    (c.receive pkt.received).Follows (told ++ pkt.notice.toList) := by
  have hnew : ∀ d, pkt.notice = some (.shown d) → ∀ m ∈ told, m.item ≠ d := by
    intro d hn
    rw [hn] at ho
    exact ho.of_concat.2 d rfl
  have hstep : ShownStep c.state.shownIds pkt _ := shown_step hshelf hmode
  rcases hstep with ⟨hn, hids⟩ | ⟨hids⟩ | ⟨d, hn, hids⟩ | ⟨d, hn, hids⟩
  · refine ⟨hids ▸ h.nodup, fun d hd => ?_, fun d hd hr => ?_⟩ <;> rw [hids] at hd
    · exact List.mem_append_left _ (h.shown d hd)
    · rcases List.mem_append.1 hr with hr | hr
      · exact h.kept d hd hr
      · exact hn d (Option.mem_toList.1 hr)
  · constructor <;> rw [hids]
    · exact List.nodup_nil
    · exact nofun
    · exact nofun
  · have hno : d ∉ c.state.shownIds := fun hmem => hnew d hn _ (h.shown d hmem) rfl
    refine ⟨?_, fun e he => ?_, fun e he hr => ?_⟩
    · rw [hids]
      exact List.nodup_append.2 ⟨h.nodup, List.nodup_singleton d, by
        rintro e he _ he' rfl
        exact hno (List.mem_singleton.1 he' ▸ he)⟩
    · rw [hids] at he
      rcases List.mem_append.1 he with he | he
      · exact List.mem_append_left _ (h.shown e he)
      · rw [List.mem_singleton.1 he, hn]
        exact List.mem_append_right _ List.mem_cons_self
    · rw [hids] at he
      rw [hn, Option.toList_some, List.mem_append, List.mem_singleton] at hr
      rcases List.mem_append.1 he with he | he
      · rcases hr with hr | hr
        · exact h.kept e he hr
        · cases hr
      · obtain rfl := List.mem_singleton.1 he
        rcases hr with hr | hr
        · exact hnew _ hn _ hr rfl
        · cases hr
  · have hmem : ∀ e, e ∈ (c.receive pkt.received).state.shownIds ↔
        e ≠ d ∧ e ∈ c.state.shownIds := fun e => (hids.mem_iff).trans h.nodup.mem_erase_iff
    refine ⟨hids.nodup_iff.2 (h.nodup.erase d), fun e he => ?_, fun e he hr => ?_⟩
    · exact List.mem_append_left _ (h.shown e ((hmem e).1 he).2)
    · rw [hn, Option.toList_some, List.mem_append, List.mem_singleton] at hr
      rcases hr with hr | hr
      · exact h.kept e ((hmem e).1 he).2 hr
      · cases hr
        exact ((hmem _).1 he).1 rfl

theorem mode_receive (h : c.mode = .gameOver) (pkt : UiPacket) :
    (c.receive pkt).mode = .gameOver := by
  unfold UiClient.receive
  rw [if_pos h]
  exact h

/-- **A client that was sent an orderly stream** shows only what it was told to show and not told to
remove, until it exits. -/
theorem follows_run (money goal : ℤ) {pkts : List Packet} (ho : Orderly (notices pkts))
    (hmode : ((UiClient.start money goal).run pkts).mode ≠ .gameOver) :
    ((UiClient.start money goal).run pkts).Follows (notices pkts) := by
  induction pkts using List.reverseRecOn with
  | nil => exact ⟨List.nodup_nil, nofun, nofun⟩
  | append_singleton pkts pkt ih =>
    rw [UiClient.run_concat] at hmode ⊢
    have hlive : ((UiClient.start money goal).run pkts).mode ≠ .gameOver :=
      fun h => hmode (mode_receive h _)
    rw [notices_concat] at ho ⊢
    have hold : Orderly (notices pkts) := by
      rcases hn : pkt.notice with _ | n <;> rw [hn] at ho
      · simpa using ho
      · exact ho.of_concat.1
    exact (ih hold hlive).step (UiClient.shelved_run money goal pkts) hlive ho

end UnderFlow
