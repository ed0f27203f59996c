import UnderFlow.Client.Bounds
import Mathlib.Data.List.Perm.Basic
import Mathlib.Data.List.Induction

/-!
# The boards of the client as lists

An array used up to a count stands for the list of its entries before the count.

* `shelf` : that list, and what the operations on arrays do to it.
* `ClientState.listings` : the market on the board of the client.
* `listings_marketRemove`, … : what every packet does to them.
-/

namespace UnderFlow

/-! ### Arrays -/

section Shelf

variable {α : Type} {n : ℕ} {v src : Vector α n} {count : ℤ} {i : ℕ}

/-- The entries of an array before a count. -/
def shelf (v : Vector α n) (count : ℤ) : List α := v.toList.take count.toNat

theorem length_shelf (hn : count ≤ n) : (shelf v count).length = count.toNat := by
  rw [shelf, List.length_take, Vector.length_toList]
  omega

theorem toList_setAt {x : α} {i : ℤ} (hi : 0 ≤ i) :
    (setAt v i x).toList = v.toList.set i.toNat x := by
  rw [setAt, if_pos hi]
  exact Vector.toList_setIfInBounds

theorem getElem?_shelf (hi : (i : ℤ) < count) : (shelf v count)[i]? = v[i]? := by
  rw [shelf, List.getElem?_take_of_lt (by omega), Vector.getElem?_toList]

/-- An entry is stored at the count. -/
theorem shelf_push (h0 : 0 ≤ count) (hn : count < n) (x : α) :
    shelf (setAt v count x) (count + 1) = shelf v count ++ [x] := by
  have hlt : count.toNat < v.toList.length := by
    rw [Vector.length_toList]
    omega
  rw [shelf, toList_setAt h0, show (count + 1).toNat = count.toNat + 1 by omega]
  rw [List.take_succ_eq_append_getElem (by simpa using hlt), List.getElem_set_self]
  rw [List.take_set_of_le le_rfl, shelf]

/-- The last entry is stored in the place of another one, and the count goes down. -/
theorem shelf_swapRemove (hi : (i : ℤ) < count) (hn : count ≤ n) (z : α) :
    (shelf (setAt v i (v[(count - 1).toNat]?.getD z)) (count - 1)).Perm
      ((shelf v count).eraseIdx i) := by
  obtain ⟨k, rfl⟩ : ∃ k : ℕ, count = k + 1 := ⟨(count - 1).toNat, by omega⟩
  have hk : k < v.toList.length := by
    rw [Vector.length_toList]
    omega
  have hlast : v[(((k : ℤ) + 1) - 1).toNat]?.getD z = v.toList[k] := by
    have hkn : k < n := by omega
    simp [hkn]
  have hall : shelf v (k + 1) = v.toList.take k ++ [v.toList[k]] := by
    rw [shelf, show ((k : ℤ) + 1).toNat = k + 1 by omega, List.take_succ_eq_append_getElem hk]
  have hlen : (v.toList.take k).length = k := by
    rw [List.length_take]
    omega
  rw [hlast, hall, shelf, toList_setAt (by omega), show ((k : ℤ) + 1 - 1).toNat = k by omega,
    Int.toNat_natCast]
  rcases Nat.lt_or_ge i k with hik | hik
  · rw [List.take_set, List.eraseIdx_append_of_lt_length (by omega)]
    have hlt : i < (v.toList.take k).length := by omega
    exact (List.set_perm_cons_eraseIdx hlt _).trans (List.perm_append_singleton _ _).symm
  · obtain rfl : i = k := by omega
    rw [List.take_set_of_le le_rfl, List.eraseIdx_append_of_length_le (by omega), hlen]
    simp

theorem shelf_mapBefore (hn : count ≤ n) (f : α → α) :
    shelf (mapBefore count f v) count = (shelf v count).map f := by
  refine List.ext_getElem? fun i => ?_
  rw [List.getElem?_map]
  rcases lt_or_ge (i : ℤ) count with hi | hi
  · rw [getElem?_shelf hi, getElem?_shelf hi]
    have hin : i < n := by omega
    simp [mapBefore, hin, hi]
  · rw [List.getElem?_eq_none (by rw [length_shelf hn]; omega),
      List.getElem?_eq_none (by rw [length_shelf hn]; omega)]
    rfl

/-- The search of the client is a search of the list. -/
theorem find_indices (hn : count ≤ n) (p : α → Bool) (z : α) :
    ((indices count).find? fun i => p (v[i]?.getD z)) = (shelf v count).findIdx? p := by
  have hget : ∀ i : ℕ, (i : ℤ) < count → ∃ x, v[i]? = some x ∧ (shelf v count)[i]? = some x := by
    intro i hi
    have hin : i < n := by omega
    exact ⟨v[i], by simp [hin], by rw [getElem?_shelf hi]; simp [hin]⟩
  rcases h : (shelf v count).findIdx? p with _ | i
  · refine List.find?_eq_none.2 fun i hi => ?_
    obtain ⟨x, hv, hx⟩ := hget i (mem_indices.1 hi)
    simpa [hv] using List.findIdx?_eq_none_iff.1 h x (List.mem_of_getElem? hx)
  · obtain ⟨hlt, hp, hno⟩ := List.findIdx?_eq_some_iff_getElem.1 h
    rw [length_shelf hn] at hlt
    refine List.find?_range_eq_some.2 ⟨?_, List.mem_range.2 hlt, fun j hj => ?_⟩
    · obtain ⟨x, hv, hx⟩ := hget i (by omega)
      rw [hv]
      rwa [(List.getElem?_eq_some_iff.1 hx).2] at hp
    · obtain ⟨x, hv, hx⟩ := hget j (by omega)
      have hnot := hno j hj
      rw [(List.getElem?_eq_some_iff.1 hx).2] at hnot
      simpa [hv] using hnot

end Shelf

/-! ### The boards -/

namespace ClientState

variable {st : ClientState}

/-- The listings the client shows. -/
def listings (st : ClientState) : List UiMarket := shelf st.mkt st.mktCount

/-- The counts of the boards are within their arrays. -/
structure Shelved (st : ClientState) : Prop where
  mkt_nonneg : 0 ≤ st.mktCount
  mkt_le : st.mktCount ≤ uiMaxMarket
  npc_nonneg : 0 ≤ st.npcCount
  npc_le : st.npcCount ≤ uiMaxNpc

theorem Shelved.of_counts {st' : ClientState} (h : st.Shelved) (hmkt : st'.mktCount = st.mktCount)
    (hnpc : st'.npcCount = st.npcCount) : st'.Shelved :=
  ⟨hmkt ▸ h.mkt_nonneg, hmkt ▸ h.mkt_le, hnpc ▸ h.npc_nonneg, hnpc ▸ h.npc_le⟩

theorem listings_marketSpawn (h : st.Shelved) (d : ℤ) (t : Tags) (p : ℤ) (n : Bytes) :
    (st.onMarketSpawn d t p n).listings = if st.mktCount < uiMaxMarket then
      st.listings ++ [⟨d, t, p, cstr maxNameLen n, t.meets st.frozenMask⟩] else st.listings := by
  unfold onMarketSpawn
  split_ifs with hlt
  · exact shelf_push h.mkt_nonneg hlt _
  · rfl

/-- The first entry with the number is removed; the others may move. -/
theorem listings_marketRemove (h : st.Shelved) (d : ℤ) :
    (st.onMarketRemove d).listings.Perm (st.listings.eraseP (·.docId == d)) := by
  have hfind : st.findMarket d = st.listings.findIdx? (·.docId == d) :=
    find_indices h.mkt_le (fun m : UiMarket => m.docId == d) ({} : UiMarket)
  rw [List.eraseP_eq_eraseIdx, ← hfind, onMarketRemove]
  rcases hf : st.findMarket d with _ | i
  · exact .refl _
  · exact shelf_swapRemove (findMarket_lt hf) h.mkt_le ({} : UiMarket)

theorem listings_newsLeak (h : st.Shelved) (t : Tags) (headline : Bytes) :
    (st.onNewsLeak t headline).listings = st.listings.map fun m =>
      if m.tags.meets (st.frozenMask ||| t) then { m with isFrozen := true } else m := by
  rw [listings, onNewsLeak]
  exact shelf_mapBefore h.mkt_le fun m : UiMarket =>
    if m.tags.meets (st.frozenMask ||| t) then { m with isFrozen := true } else m

theorem listings_newsRecover (h : st.Shelved) (t : Tags) :
    (st.onNewsRecover t).listings = st.listings.map fun m =>
      { m with isFrozen := m.tags.meets (st.frozenMask &&& ~~~t) } := by
  rw [listings, onNewsRecover]
  exact shelf_mapBefore h.mkt_le fun m : UiMarket =>
    { m with isFrozen := m.tags.meets (st.frozenMask &&& ~~~t) }

/-- A chat is no news to the boards. -/
theorem onChat_boards (st : ClientState) (mode : ClientMode) (sender text : Bytes) :
    ∃ news chat count, st.onChat mode sender text =
      { st with lastNews := news, sbChat := chat, sbChatCount := count } := by
  unfold onChat
  split_ifs <;> exact ⟨_, _, _, rfl⟩

theorem Shelved.marketSpawn (h : st.Shelved) (d : ℤ) (t : Tags) (p : ℤ) (n : Bytes) :
    (st.onMarketSpawn d t p n).Shelved := by
  have hnonneg := h.mkt_nonneg
  unfold onMarketSpawn
  split_ifs with hlt
  · exact ⟨by show 0 ≤ st.mktCount + 1; omega, by show st.mktCount + 1 ≤ uiMaxMarket; omega,
      h.npc_nonneg, h.npc_le⟩
  · exact h

theorem Shelved.marketRemove (h : st.Shelved) (d : ℤ) : (st.onMarketRemove d).Shelved := by
  have hle := h.mkt_le
  unfold onMarketRemove
  split
  · exact h
  · rename_i i hi
    have hlt := findMarket_lt hi
    exact ⟨by show 0 ≤ st.mktCount - 1; omega, by show st.mktCount - 1 ≤ uiMaxMarket; omega,
      h.npc_nonneg, h.npc_le⟩

theorem Shelved.npcSpawn (h : st.Shelved) (n : ℤ) (t : Tags) (b : ℤ) :
    (st.onNpcSpawn n t b).Shelved := by
  have hnonneg := h.npc_nonneg
  unfold onNpcSpawn
  split_ifs with hlt
  · exact ⟨h.mkt_nonneg, h.mkt_le, by show 0 ≤ st.npcCount + 1; omega,
      by show st.npcCount + 1 ≤ uiMaxNpc; omega⟩
  · exact h

theorem Shelved.npcDespawn (h : st.Shelved) (n : ℤ) : (st.onNpcDespawn n).Shelved := by
  have hle := h.npc_le
  unfold onNpcDespawn
  split
  · exact h
  · rename_i i hi
    have hlt := findNpc_lt hi
    exact ⟨h.mkt_nonneg, h.mkt_le, by show 0 ≤ st.npcCount - 1; omega,
      by show st.npcCount - 1 ≤ uiMaxNpc; omega⟩

end ClientState

/-- **The counts of the boards** stay within their arrays. -/
theorem UiClient.shelved_receive {c : UiClient} (h : c.state.Shelved) (pkt : UiPacket) :
    (c.receive pkt).state.Shelved := by
  unfold receive
  split_ifs with hmode
  · exact h
  · cases pkt with
    | chat sender text =>
      obtain ⟨news, chat, count, heq⟩ := c.state.onChat_boards c.mode sender text
      show (c.state.onChat c.mode sender text).Shelved
      rw [heq]
      exact h.of_counts rfl rfl
    | gameOver message =>
      by_cases hmark : roundResetMark.isPrefixOf message = true
      · simp only [hmark, ↓reduceIte]
        exact ⟨le_rfl, Int.natCast_nonneg _, le_rfl, Int.natCast_nonneg _⟩
      · simp only [hmark, Bool.false_eq_true, ↓reduceIte]
        exact h
    | marketSpawn d t p n => exact h.marketSpawn d t p n
    | marketRemove d => exact h.marketRemove d
    | npcSpawn n t b => exact h.npcSpawn n t b
    | npcDespawn n => exact h.npcDespawn n
    | newsLeak t dur headline =>
      simp only [ClientState.onNewsLeak]
      exact h.of_counts rfl rfl
    | newsRecover t =>
      simp only [ClientState.onNewsRecover]
      exact h.of_counts rfl rfl
    | invenInfo count items money => exact h.of_counts rfl rfl
    | scoreboard e es r rs => exact h.of_counts rfl rfl
    | buyOk d money name | sellOk bounty money | goalUpdate goal => exact h.of_counts rfl rfl
    | _ => exact h

/-- The client after some packets of the server. -/
def UiClient.run (c : UiClient) (pkts : List Packet) : UiClient :=
  pkts.foldl (fun c pkt => c.receive pkt.received) c

theorem UiClient.run_concat (c : UiClient) (pkts : List Packet) (pkt : Packet) :
    c.run (pkts ++ [pkt]) = (c.run pkts).receive pkt.received := by
  simp [UiClient.run]

theorem UiClient.shelved_run (money goal : ℤ) (pkts : List Packet) :
    ((UiClient.start money goal).run pkts).state.Shelved := by
  induction pkts using List.reverseRecOn with
  | nil => exact ⟨le_rfl, Int.natCast_nonneg _, le_rfl, Int.natCast_nonneg _⟩
  | append_singleton pkts pkt ih =>
    rw [UiClient.run_concat]
    exact UiClient.shelved_receive ih pkt.received

end UnderFlow
