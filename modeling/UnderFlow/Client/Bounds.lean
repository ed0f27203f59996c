import UnderFlow.Client.Board

/-!
# The arrays of the client

* `UiClient.accesses`, `ClientState.renders` : the entries of the arrays that a packet, or a
  renderer on a screen of any size, touches.
* `SafeRun` : during a run all counts keep to their arrays, and every access is in bounds.
* `safeRun_iff` : exactly when every packet of the run keeps to `UiClient.Admits`.
-/

namespace UnderFlow

/-! ### Accesses -/

/-- The arrays of the client that are indexed with a count. -/
inductive UiArray where
  | mkt
  | npc
  | inv
  | sbEscaped
  | sbRemaining
  | sbChat
  deriving DecidableEq

/-- The size an array is declared with. -/
def UiArray.size : UiArray → ℕ
  | mkt => uiMaxMarket
  | npc => uiMaxNpc
  | inv => maxInvenSize
  | sbEscaped => maxScoreEscaped
  | sbRemaining => maxScoreRemaining
  | sbChat => sbChatLines

/-- A read or a write of an entry. -/
structure Access where
  /-- The array. -/
  array : UiArray
  /-- The index used. -/
  index : ℤ
  deriving DecidableEq

/-- The access is inside its array. -/
def Access.InBounds (a : Access) : Prop := 0 ≤ a.index ∧ a.index < a.array.size

instance (a : Access) : Decidable a.InBounds := inferInstanceAs (Decidable (_ ∧ _))

/-- The entries before a count. -/
def entries (array : UiArray) (count : ℤ) : List Access :=
  (indices count).map fun i : ℕ => ⟨array, i⟩

/-- The entries before a count that are drawn, when entry `i` goes to row `row i`. -/
def entriesInRows (array : UiArray) (count : ℤ) (row : ℕ → ℤ) (limit : ℤ) : List Access :=
  ((indices count).takeWhile fun i => decide (row i < limit)).map fun i : ℕ => ⟨array, i⟩

/-- The heights of the windows and of the screen. -/
structure Screen where
  /-- The height of the market window. -/
  market : ℤ
  /-- The height of the orders window. -/
  bounty : ℤ
  /-- The height of the inventory window. -/
  inventory : ℤ
  /-- The height of the screen. -/
  height : ℤ

namespace ClientState

variable (st : ClientState)

/-- The listings drawn into a window of some height. -/
def renderMarket (h : ℤ) : List Access := entriesInRows .mkt st.mktCount (fun i => 2 + i) (h - 1)

/-- The orders drawn into a window of some height. -/
def renderBounty (h : ℤ) : List Access :=
  entriesInRows .npc st.npcCount (fun i => 1 + 3 * i + 2) (h - 1)

/-- The documents drawn into a window of some height. -/
def renderInventory (h : ℤ) : List Access :=
  entriesInRows .inv st.invCount (fun i => 1 + i) (h - 1)

/-- The list of the escaped is drawn up to its count, whatever the height of the box. -/
def renderScoreboard (h : ℤ) : List Access :=
  let boxH := min 22 (h - 2)
  let y := (if st.sbEscapedCount = 0 then 5 else 4 + st.sbEscapedCount) + 3
  let shown := if st.sbChatCount < sbChatLines then st.sbChatCount else sbChatLines
  entries .sbEscaped st.sbEscapedCount ++
    entriesInRows .sbRemaining st.sbRemainingCount (fun i => y + i) (boxH - 4 - sbChatLines) ++
    (indices shown).map fun i : ℕ => ⟨.sbChat, (st.sbChatCount - shown + i).tmod sbChatLines⟩

/-- What the four renderers touch. -/
def renders (scr : Screen) : List Access :=
  st.renderMarket scr.market ++ st.renderBounty scr.bounty ++ st.renderInventory scr.inventory ++
    st.renderScoreboard scr.height

end ClientState

/-- What the client reacts to: a packet, or the local command that puts it back to normal. -/
inductive ClientEvent where
  | recv (pkt : UiPacket)
  | fakeOk

/-- The client takes an event; the end of the game is final. -/
def UiClient.step (c : UiClient) : ClientEvent → UiClient
  | .recv pkt => c.receive pkt
  | .fakeOk => if c.mode = .gameOver then c else { c with mode := .normal }

/-- A removal reads up to the entry it finds, and moves the last entry to its place. -/
def removal (array : UiArray) (count : ℤ) : Option ℕ → List Access
  | none => entries array count
  | some i => entries array (i + 1) ++ [⟨array, count - 1⟩]

/-- What the main loop touches while it handles a packet. -/
def UiClient.accesses (c : UiClient) : ClientEvent → List Access
  | .fakeOk => []
  | .recv pkt =>
    if c.mode = .gameOver then []
    else
      match pkt with
      | .chat _ _ =>
        if c.mode = .roundEnd then [⟨.sbChat, c.state.sbChatCount.tmod sbChatLines⟩] else []
      | .scoreboard _ e _ r _ =>
        entries .sbEscaped (min e maxScoreEscaped) ++ entries .sbRemaining (min r maxScoreRemaining)
      | .marketSpawn _ _ _ _ =>
        if c.state.mktCount < uiMaxMarket then [⟨.mkt, c.state.mktCount⟩] else []
      | .marketRemove d => removal .mkt c.state.mktCount (c.state.findMarket d)
      | .npcSpawn _ _ _ =>
        if c.state.npcCount < uiMaxNpc then [⟨.npc, c.state.npcCount⟩] else []
      | .npcDespawn n => removal .npc c.state.npcCount (c.state.findNpc n)
      | .newsLeak _ _ _ | .newsRecover _ =>
        entries .mkt c.state.mktCount ++ entries .inv c.state.invCount
      | .invenInfo count _ _ => entries .inv count
      | _ => []

/-! ### Safe runs -/

/-- The counts keep to the arrays. -/
structure ClientState.Counted (st : ClientState) : Prop where
  mkt : 0 ≤ st.mktCount ∧ st.mktCount ≤ uiMaxMarket
  npc : 0 ≤ st.npcCount ∧ st.npcCount ≤ uiMaxNpc
  inv : st.invCount ≤ maxInvenSize
  escaped : st.sbEscapedCount ≤ maxScoreEscaped
  remaining : st.sbRemainingCount ≤ maxScoreRemaining

/-- The counts keep to the arrays, and so do the renderers on every screen. -/
structure UiClient.Safe (c : UiClient) : Prop where
  counted : c.state.Counted
  renders : ∀ scr, ∀ a ∈ c.state.renders scr, a.InBounds

/-- Every state of a run is safe, and every access of its steps is in bounds. -/
def SafeRun : UiClient → List ClientEvent → Prop
  | c, [] => c.Safe
  | c, ev :: evs => c.Safe ∧ (∀ a ∈ c.accesses ev, a.InBounds) ∧ SafeRun (c.step ev) evs

/-- The counts in the packet do not exceed the arrays, and the counter of the chats in the
scoreboard has not overflowed when a chat is put there. -/
def UiClient.Admits (c : UiClient) : ClientEvent → Prop
  | .recv (.invenInfo count _ _) => c.mode ≠ .gameOver → count ≤ maxInvenSize
  | .recv (.scoreboard _ e _ r _) =>
    c.mode ≠ .gameOver → e ≤ maxScoreEscaped ∧ r ≤ maxScoreRemaining
  | .recv (.chat _ _) => c.mode = .roundEnd → 0 ≤ c.state.sbChatCount
  | _ => True

/-- Every step of a run is admitted. -/
def AdmittedRun : UiClient → List ClientEvent → Prop
  | _, [] => True
  | c, ev :: evs => c.Admits ev ∧ AdmittedRun (c.step ev) evs

/-! ### The renderers -/

variable {array : UiArray} {count : ℤ} {a : Access} {st : ClientState} {c : UiClient}
  {ev : ClientEvent}

theorem mem_indices {i : ℕ} : i ∈ indices count ↔ (i : ℤ) < count := by
  rw [indices, List.mem_range]
  omega

theorem entries_inBounds (h : count ≤ array.size) (ha : a ∈ entries array count) : a.InBounds := by
  obtain ⟨i, hi, rfl⟩ := List.mem_map.1 ha
  have := mem_indices.1 hi
  exact ⟨Int.natCast_nonneg i, by show (i : ℤ) < array.size; omega⟩

theorem entriesInRows_inBounds {row : ℕ → ℤ} {limit : ℤ} (h : count ≤ array.size)
    (ha : a ∈ entriesInRows array count row limit) : a.InBounds := by
  obtain ⟨i, hi, rfl⟩ := List.mem_map.1 ha
  exact entries_inBounds h (List.mem_map_of_mem ((List.takeWhile_sublist _).mem hi))

/-- A remainder of a number that is not negative is an index. -/
theorem tmod_inBounds {x : ℤ} (h : 0 ≤ x) : Access.InBounds ⟨.sbChat, x.tmod sbChatLines⟩ := by
  have hpos : (0 : ℤ) < sbChatLines := by decide
  exact ⟨Int.tmod_nonneg _ h, Int.tmod_lt_of_pos x hpos⟩

theorem renders_inBounds (h : st.Counted) (scr : Screen) : ∀ a ∈ st.renders scr, a.InBounds := by
  intro a ha
  simp only [ClientState.renders, ClientState.renderMarket, ClientState.renderBounty,
    ClientState.renderInventory, ClientState.renderScoreboard, List.mem_append] at ha
  rcases ha with ((ha | ha) | ha) | ((ha | ha) | ha)
  · exact entriesInRows_inBounds h.mkt.2 ha
  · exact entriesInRows_inBounds h.npc.2 ha
  · exact entriesInRows_inBounds h.inv ha
  · exact entries_inBounds h.escaped ha
  · exact entriesInRows_inBounds h.remaining ha
  · obtain ⟨i, hi, rfl⟩ := List.mem_map.1 ha
    have hi := mem_indices.1 hi
    refine tmod_inBounds ?_
    split_ifs at hi ⊢ <;> omega

theorem safe_of_counted (h : c.state.Counted) : c.Safe := ⟨h, renders_inBounds h⟩

/-! ### Runs -/

/-- The invariant of admitted runs: a counter that has just overflowed is the least 32-bit
number. -/
structure ClientState.Sound (st : ClientState) : Prop extends st.Counted where
  chat : (0 ≤ st.sbChatCount ∧ st.sbChatCount < 2 ^ 31) ∨ st.sbChatCount = -2 ^ 31

theorem findMarket_lt {d : ℤ} {i : ℕ} (h : st.findMarket d = some i) : (i : ℤ) < st.mktCount :=
  mem_indices.1 (List.mem_of_find?_eq_some h)

theorem findNpc_lt {n : ℤ} {i : ℕ} (h : st.findNpc n = some i) : (i : ℤ) < st.npcCount :=
  mem_indices.1 (List.mem_of_find?_eq_some h)

/-- The counter of the chats counts on, or overflows. -/
theorem wrapInt32_succ {x : ℤ} (h : 0 ≤ x) (hlt : x < 2 ^ 31) :
    (0 ≤ wrapInt32 (x + 1) ∧ wrapInt32 (x + 1) < 2 ^ 31) ∨ wrapInt32 (x + 1) = -2 ^ 31 := by
  rw [wrapInt32, BitVec.toInt_ofInt, Int.bmod_def]
  split_ifs <;> omega

theorem removal_inBounds {found : Option ℕ} (h : count ≤ array.size)
    (hfound : ∀ i, found = some i → (i : ℤ) < count) (ha : a ∈ removal array count found) :
    a.InBounds := by
  cases found with
  | none => exact entries_inBounds h ha
  | some i =>
    have hi := hfound i rfl
    rcases List.mem_append.1 ha with ha | ha
    · exact entries_inBounds (by omega) ha
    · rw [List.mem_singleton.1 ha]
      exact ⟨by show 0 ≤ count - 1; omega, by show count - 1 < array.size; omega⟩

/-- **The accesses of an admitted step** are in bounds. -/
theorem accesses_inBounds (h : c.state.Sound) (hadm : c.Admits ev) :
    ∀ a ∈ c.accesses ev, a.InBounds := by
  intro a ha
  cases ev with
  | fakeOk => cases ha
  | recv pkt =>
    unfold UiClient.accesses at ha
    dsimp only at ha
    by_cases hmode : c.mode = .gameOver
    · rw [if_pos hmode] at ha
      cases ha
    rw [if_neg hmode] at ha
    cases pkt with
    | chat sender text =>
      by_cases hround : c.mode = .roundEnd
      · rw [if_pos hround, List.mem_singleton] at ha
        rw [ha]
        exact tmod_inBounds (hadm hround)
      · rw [if_neg hround] at ha
        cases ha
    | scoreboard e es r rs =>
      rcases List.mem_append.1 ha with ha | ha
      · exact entries_inBounds (min_le_right _ _) ha
      · exact entries_inBounds (min_le_right _ _) ha
    | marketSpawn d t p n =>
      by_cases hlt : c.state.mktCount < uiMaxMarket
      · rw [if_pos hlt, List.mem_singleton] at ha
        rw [ha]
        exact ⟨h.mkt.1, hlt⟩
      · rw [if_neg hlt] at ha
        cases ha
    | marketRemove d => exact removal_inBounds h.mkt.2 (fun i => findMarket_lt) ha
    | npcSpawn n t b =>
      by_cases hlt : c.state.npcCount < uiMaxNpc
      · rw [if_pos hlt, List.mem_singleton] at ha
        rw [ha]
        exact ⟨h.npc.1, hlt⟩
      · rw [if_neg hlt] at ha
        cases ha
    | npcDespawn n => exact removal_inBounds h.npc.2 (fun i => findNpc_lt) ha
    | newsLeak t dur text | newsRecover t =>
      rcases List.mem_append.1 ha with ha | ha
      · exact entries_inBounds h.mkt.2 ha
      · exact entries_inBounds h.inv ha
    | invenInfo count items money => exact entries_inBounds (hadm hmode) ha
    | _ => cases ha

/-- A chat in the scoreboard counts on from a counter that has not overflowed. -/
theorem ClientState.Sound.chat_succ (h : st.Sound) (hpos : 0 ≤ st.sbChatCount) :
    (0 ≤ wrapInt32 (st.sbChatCount + 1) ∧ wrapInt32 (st.sbChatCount + 1) < 2 ^ 31) ∨
      wrapInt32 (st.sbChatCount + 1) = -2 ^ 31 := by
  rcases h.chat with hlt | hneg
  · exact wrapInt32_succ hpos hlt.2
  · omega

theorem sound_chat (h : st.Sound) {mode : ClientMode} (hadm : mode = .roundEnd → 0 ≤ st.sbChatCount)
    (sender text : Bytes) : (st.onChat mode sender text).Sound := by
  unfold ClientState.onChat
  split_ifs with hnews hround hround
  · exact ⟨⟨h.mkt, h.npc, h.inv, h.escaped, h.remaining⟩, h.chat_succ (hadm hround)⟩
  · exact ⟨⟨h.mkt, h.npc, h.inv, h.escaped, h.remaining⟩, h.chat⟩
  · exact ⟨⟨h.mkt, h.npc, h.inv, h.escaped, h.remaining⟩, h.chat_succ (hadm hround)⟩
  · exact h

theorem sound_marketSpawn (h : st.Sound) (d : ℤ) (t : Tags) (p : ℤ) (n : Bytes) :
    (st.onMarketSpawn d t p n).Sound := by
  unfold ClientState.onMarketSpawn
  split_ifs with hlt
  · exact ⟨⟨⟨by have := h.mkt.1; show 0 ≤ st.mktCount + 1; omega,
      by show st.mktCount + 1 ≤ uiMaxMarket; omega⟩, h.npc, h.inv, h.escaped, h.remaining⟩, h.chat⟩
  · exact h

theorem sound_marketRemove (h : st.Sound) (d : ℤ) : (st.onMarketRemove d).Sound := by
  unfold ClientState.onMarketRemove
  split
  · exact h
  · rename_i i hi
    have hlt := findMarket_lt hi
    have hle := h.mkt.2
    exact ⟨⟨⟨by show 0 ≤ st.mktCount - 1; omega, by show st.mktCount - 1 ≤ uiMaxMarket; omega⟩,
      h.npc, h.inv, h.escaped, h.remaining⟩, h.chat⟩

theorem sound_npcSpawn (h : st.Sound) (n : ℤ) (t : Tags) (b : ℤ) : (st.onNpcSpawn n t b).Sound := by
  unfold ClientState.onNpcSpawn
  split_ifs with hlt
  · exact ⟨⟨h.mkt, ⟨by have := h.npc.1; show 0 ≤ st.npcCount + 1; omega,
      by show st.npcCount + 1 ≤ uiMaxNpc; omega⟩, h.inv, h.escaped, h.remaining⟩, h.chat⟩
  · exact h

theorem sound_npcDespawn (h : st.Sound) (n : ℤ) : (st.onNpcDespawn n).Sound := by
  unfold ClientState.onNpcDespawn
  split
  · exact h
  · rename_i i hi
    have hlt := findNpc_lt hi
    have hle := h.npc.2
    exact ⟨⟨h.mkt, ⟨by show 0 ≤ st.npcCount - 1; omega, by show st.npcCount - 1 ≤ uiMaxNpc; omega⟩,
      h.inv, h.escaped, h.remaining⟩, h.chat⟩

/-- Empty boards are sound. -/
theorem sound_of_empty (hmkt : st.mktCount = 0) (hnpc : st.npcCount = 0) (hinv : st.invCount = 0)
    (hesc : st.sbEscapedCount = 0) (hrem : st.sbRemainingCount = 0) (hchat : st.sbChatCount = 0) :
    st.Sound := by
  refine ⟨⟨?_, ?_, ?_, ?_, ?_⟩, ?_⟩
  · rw [hmkt]; exact ⟨le_refl 0, Int.natCast_nonneg _⟩
  · rw [hnpc]; exact ⟨le_refl 0, Int.natCast_nonneg _⟩
  · rw [hinv]; exact Int.natCast_nonneg _
  · rw [hesc]; exact Int.natCast_nonneg _
  · rw [hrem]; exact Int.natCast_nonneg _
  · rw [hchat]; decide

/-- The invariant is about the counts only. -/
theorem ClientState.Sound.of_counts {st' : ClientState} (h : st.Sound)
    (hmkt : st'.mktCount = st.mktCount) (hnpc : st'.npcCount = st.npcCount)
    (hinv : st'.invCount = st.invCount) (hesc : st'.sbEscapedCount = st.sbEscapedCount)
    (hrem : st'.sbRemainingCount = st.sbRemainingCount)
    (hchat : st'.sbChatCount = st.sbChatCount) : st'.Sound :=
  ⟨⟨hmkt ▸ h.mkt, hnpc ▸ h.npc, hinv ▸ h.inv, hesc ▸ h.escaped, hrem ▸ h.remaining⟩,
    hchat ▸ h.chat⟩

/-- **An admitted step** keeps the invariant. -/
theorem sound_step (h : c.state.Sound) (hadm : c.Admits ev) : (c.step ev).state.Sound := by
  cases ev with
  | fakeOk =>
    unfold UiClient.step
    split_ifs <;> exact h
  | recv pkt =>
    show (c.receive pkt).state.Sound
    unfold UiClient.receive
    by_cases hmode : c.mode = .gameOver
    · rw [if_pos hmode]
      exact h
    rw [if_neg hmode]
    cases pkt with
    | chat sender text => exact sound_chat h hadm sender text
    | scoreboard e es r rs =>
      obtain ⟨he, hr⟩ := hadm hmode
      exact ⟨⟨h.mkt, h.npc, h.inv, he, hr⟩, .inl ⟨le_refl 0, show (0 : ℤ) < 2 ^ 31 by decide⟩⟩
    | marketSpawn d t p n => exact sound_marketSpawn h d t p n
    | marketRemove d => exact sound_marketRemove h d
    | npcSpawn n t b => exact sound_npcSpawn h n t b
    | npcDespawn n => exact sound_npcDespawn h n
    | invenInfo count items money =>
      exact ⟨⟨h.mkt, h.npc, hadm hmode, h.escaped, h.remaining⟩, h.chat⟩
    | gameOver message =>
      dsimp only
      by_cases hmark : roundResetMark.isPrefixOf message = true
      · rw [if_pos hmark]
        exact sound_of_empty rfl rfl rfl rfl rfl rfl
      · rw [if_neg hmark]
        exact h
    | newsLeak t dur text =>
      dsimp only [ClientState.onNewsLeak]
      exact h.of_counts rfl rfl rfl rfl rfl rfl
    | newsRecover t =>
      dsimp only [ClientState.onNewsRecover]
      exact h.of_counts rfl rfl rfl rfl rfl rfl
    | buyOk d money name | sellOk bounty money | goalUpdate goal =>
      exact h.of_counts rfl rfl rfl rfl rfl rfl
    | _ => exact h

/-- A step that is not admitted leaves an array. -/
theorem admits_of_safe (h : c.state.Sound) (hacc : ∀ a ∈ c.accesses ev, a.InBounds)
    (hsafe : (c.step ev).Safe) : c.Admits ev := by
  cases ev with
  | fakeOk => trivial
  | recv pkt =>
    cases pkt with
    | invenInfo count items money =>
      intro hmode
      have hinv := hsafe.counted.inv
      rw [UiClient.step, UiClient.receive, if_neg hmode] at hinv
      exact hinv
    | scoreboard e es r rs =>
      intro hmode
      have hcounts := And.intro hsafe.counted.escaped hsafe.counted.remaining
      rw [UiClient.step, UiClient.receive, if_neg hmode] at hcounts
      exact hcounts
    | chat sender text =>
      intro hround
      rcases h.chat with hpos | hneg
      · exact hpos.1
      · have hmem : (⟨.sbChat, c.state.sbChatCount.tmod sbChatLines⟩ : Access) ∈
            c.accesses (.recv (.chat sender text)) := by
          simp [UiClient.accesses, hround]
        have hbad := (hacc _ hmem).1
        rw [hneg] at hbad
        exact absurd hbad (by decide)
    | _ => trivial

theorem safe_of_sound (h : c.state.Sound) : c.Safe := safe_of_counted h.toCounted

/-- **The client stays within its arrays** exactly in the admitted runs. -/
theorem safeRun_iff_of_sound (evs : List ClientEvent) (h : c.state.Sound) :
    SafeRun c evs ↔ AdmittedRun c evs := by
  induction evs generalizing c with
  | nil => exact ⟨fun _ => trivial, fun _ => safe_of_sound h⟩
  | cons ev evs ih =>
    constructor
    · rintro ⟨-, hacc, hrun⟩
      have hsafe : (c.step ev).Safe := by
        cases evs with
        | nil => exact hrun
        | cons ev' evs => exact hrun.1
      have hadm := admits_of_safe h hacc hsafe
      exact ⟨hadm, (ih (sound_step h hadm)).1 hrun⟩
    · rintro ⟨hadm, hrun⟩
      exact ⟨safe_of_sound h, accesses_inBounds h hadm, (ih (sound_step h hadm)).2 hrun⟩

theorem sound_start (money goal : ℤ) : (UiClient.start money goal).state.Sound :=
  sound_of_empty rfl rfl rfl rfl rfl rfl

/-- **The client stays within its arrays**, from its start, exactly in the admitted runs. -/
theorem safeRun_iff (money goal : ℤ) (evs : List ClientEvent) :
    SafeRun (.start money goal) evs ↔ AdmittedRun (.start money goal) evs :=
  safeRun_iff_of_sound evs (sound_start money goal)

/-- An inventory of eight items overruns the array, and a scoreboard of four escapes makes the
renderer read past the end of another. -/
theorem not_safeRun :
    ¬ SafeRun (.start 0 0) [.recv (.invenInfo 8 (Vector.replicate _ ⟨0, 0, [], false⟩) 0)] ∧
    ¬ SafeRun (.start 0 0) [.recv (.scoreboard 10 4 (Vector.replicate _ ⟨Key.empty, 0, 0⟩) 0
      (Vector.replicate _ ⟨Key.empty, 0⟩))] := by
  constructor
  · rintro ⟨-, hacc, -⟩
    exact absurd (hacc ⟨.inv, 7⟩ (by decide)) (by decide)
  · rintro ⟨-, -, hsafe⟩
    exact absurd hsafe.counted.escaped (by decide)

end UnderFlow
