import UnderFlow.Server.Clerks
import UnderFlow.Server.Channel

/-!
# Every packet fits its buffers

The texts of a packet come from literals, from players, from files and from the tables of texts, and
pass through the boards, the raid and the locals of many threads before they are copied into a
packet.

* `Packet.Fits` : every text leaves room for its NUL, and every count is within its array.
* `Op.Fills` : what the results of an operation bring into a thread.
* `Filled` : the invariant: what the boards, the raid and the threads hold fits the packets that it
  is meant for.
* `filled_step` : every step keeps it.
* `fits_of_reach` : **every packet fits**, in every run.
* `received_of_reach` : so the client reads from the stream of its connection what the server wrote,
  if every packet is written in one piece.

No lock is taken for a socket: a handler answers on it while others broadcast.  That their sends do
not come to lie inside each other is an assumption of `Op`, where a send is one step.
-/

namespace UnderFlow

variable {s s' : Shared} {c : Choice} {th th' : Thread} {a : Action Thread} {p p' : Server}
  {t x : ℕ} {o : Op} {r : o.Ret} {pkt : Packet} {slot : MarketSlot}

/-! ### Packets -/

/-- The text leaves room for its NUL in a buffer of `k` bytes. -/
def FitsIn (k : ℕ) (text : Bytes) : Prop := text.length < k ∧ 0 ∉ text

instance (k : ℕ) (text : Bytes) : Decidable (FitsIn k text) := inferInstanceAs (Decidable (_ ∧ _))

/-- The items fit the array of an inventory, and their names theirs. -/
def FitItems (items : List InvenItem) : Prop :=
  items.length ≤ maxInvenSize ∧ ∀ item ∈ items, FitsIn maxNameLen item.name

/-- **The packet fits**: its texts leave room for their NUL, its counts are within their arrays. -/
def Packet.Fits : Packet → Prop
  | .loginFail _ reason | .error _ reason => FitsIn maxTextLen reason
  | .invenInfo items _ => FitItems items
  | .buyOk _ _ _ name | .marketSpawn _ _ _ name => FitsIn maxNameLen name
  | .chat sender text => FitsIn maxKeyLen sender ∧ FitsIn maxTextLen text
  | .newsLeak _ _ text | .policeRaid text _ | .gameOver text | .victory text =>
    FitsIn maxTextLen text
  | .scoreboard _ escaped remaining =>
    escaped.length ≤ maxScoreEscaped ∧ remaining.length ≤ maxScoreRemaining
  | _ => True

theorem fitsIn_cstr {k : ℕ} (hk : 0 < k) (text : Bytes) : FitsIn k (cstr k text) :=
  cstr_fits hk text

theorem fitsIn_text (text : Bytes) : FitsIn maxTextLen (cstr maxTextLen text) :=
  fitsIn_cstr (by decide) text

/-- A text cut for one byte less. -/
theorem fitsIn_pred (text : Bytes) : FitsIn maxTextLen (cstr (maxTextLen - 1) text) := by
  obtain ⟨hlen, hnul⟩ := fitsIn_cstr (k := maxTextLen - 1) (by decide) text
  exact ⟨hlen.trans (by decide), hnul⟩

/-- The senders of the messages of the server. -/
theorem fitsIn_senders : FitsIn maxKeyLen (utf8 "[DEBUG]") ∧ FitsIn maxKeyLen (utf8 "[ALERT]") ∧
    FitsIn maxKeyLen (utf8 "[SYSTEM]") ∧ FitsIn maxKeyLen (utf8 "[속보]") ∧
    FitsIn maxKeyLen (utf8 "[넷-피드]") := by decide +kernel

/-- The texts that are not cut: a login is refused for two reasons, a bankruptcy is told, and a late
client hears of frozen tags. -/
theorem fitsIn_literals : FitsIn maxTextLen (utf8 "이미 접속 중인 계정입니다.") ∧
    FitsIn maxTextLen (utf8 "파산/소각된 계정입니다.") ∧
    FitsIn maxTextLen (utf8 "파산했습니다. 약속을 지키지 못했군.") ∧
    FitsIn maxTextLen (utf8 "현재 동결 상태 동기화 (진행 중인 공중파 유출)") := by decide +kernel

theorem fitsIn_key (key : Key) : FitsIn maxKeyLen key.bytes := ⟨key.len, key.noNul⟩

/-- The entries of an array fit, and so do the zeros behind them. -/
theorem fits_padTo {α : Type} {t : CType} {k : ℕ} {zero : α} {l : List α} {f : α → t.Val}
    (hzero : t.Fits (f zero)) (h : ∀ x ∈ l, t.Fits (f x)) :
    (CType.array k t).Fits ((padTo k zero l).map f) := by
  intro i
  have hget : ((padTo k zero l).map f).get i = ((padTo k zero l).map f)[i.1] := rfl
  rw [hget, Vector.getElem_map, padTo, Vector.getElem_ofFn, List.getD_eq_getElem?_getD]
  cases hx : l[i.1]? with
  | none => exact hzero
  | some x => exact h x (List.mem_of_getElem? hx)

/-- The memory of the packet holds its texts. -/
theorem fits_message (h : pkt.Fits) : pkt.message.Fits := by
  cases pkt with
  | invenInfo items money =>
    refine ⟨trivial, fits_padTo ?_ fun item hitem => ?_, trivial, trivial⟩
    · decide
    · exact ⟨trivial, trivial, h.2 item hitem, trivial, trivial⟩
  | scoreboard countdown escaped remaining =>
    refine ⟨trivial, trivial, fits_padTo ?_ fun x _ => ?_, trivial, fits_padTo ?_ fun x _ => ?_,
      trivial⟩
    · decide
    · exact ⟨fitsIn_key x.key, trivial, trivial, trivial⟩
    · decide
    · exact ⟨fitsIn_key x.key, trivial, trivial⟩
  | loginFail _ _ | error _ _ => exact ⟨trivial, h, trivial⟩
  | buyOk _ _ _ _ | marketSpawn _ _ _ _ => exact ⟨trivial, trivial, trivial, h, trivial⟩
  | chat _ _ => exact ⟨h.1, h.2, trivial⟩
  | newsLeak _ _ _ => exact ⟨trivial, trivial, h, trivial⟩
  | policeRaid _ _ => exact ⟨h, trivial, trivial⟩
  | gameOver _ | victory _ => exact ⟨h, trivial⟩
  | loginOk _ _ _ | npcSpawn _ _ _ => exact ⟨trivial, trivial, trivial, trivial⟩
  | sellOk _ _ => exact ⟨trivial, trivial, trivial⟩
  | marketRemove _ | npcDespawn _ | newsRecover _ | goalUpdate _ => exact ⟨trivial, trivial⟩
  | disposeOk | minigameOk | rumorGlitch => exact trivial

/-! ### Operations -/

/-- What the shared state holds fits the packets it is meant for. -/
structure Shared.Filled (s : Shared) : Prop where
  names : ∀ slot ∈ s.market.slots, FitsIn maxNameLen slot.name
  passcode : FitsIn maxTextLen s.raid.passcode

/-- What an operation brings into a thread. -/
def Op.Fills : (o : Op) → o.Ret → Prop
  | .marketFind _, r => ∀ slot ∈ r, FitsIn maxNameLen slot.name
  | .marketTake _, r => ∀ slot, r = .ok slot → FitsIn maxNameLen slot.name
  | .marketSnapshot, r => ∀ slot ∈ r, FitsIn maxNameLen slot.name
  | .roundLog, r => r.length ≤ maxScoreEscaped
  | .raidLaunchAll, r => ∀ x ∈ r, FitsIn maxTextLen x.2.1
  | .raidLaunchSelf _, r => ∀ x ∈ r, FitsIn maxTextLen x.1
  | .raidLookup _, r => ∀ x ∈ r, FitsIn maxTextLen x.2.1
  | .compose size, r => 0 < size → FitsIn size r
  | _, _ => True

theorem fits_marketAdd {m m' : Market} {now rand : ℕ} {d price : ℤ} {tags : Tags} {name : Bytes}
    (h : ∀ slot ∈ m.slots, FitsIn maxNameLen slot.name)
    (hadd : marketAdd m now rand d tags price name = some m') :
    ∀ slot ∈ m'.slots, FitsIn maxNameLen slot.name := by
  obtain ⟨⟨old, slots⟩, hu, rfl⟩ := Option.map_eq_some_iff.1 hadd
  intro slot hslot
  rcases mem_updateFirst hu hslot with rfl | hold
  · exact fitsIn_cstr (by decide) name
  · exact h slot hold

theorem fits_marketTake {m : Market} (h : ∀ slot ∈ m.slots, FitsIn maxNameLen slot.name) (d : ℤ) :
    (∀ slot, (marketTake m d).1 = .ok slot → FitsIn maxNameLen slot.name) ∧
      ∀ slot ∈ (marketTake m d).2.slots, FitsIn maxNameLen slot.name := by
  simp only [marketTake]
  split
  · exact ⟨by rintro _ ⟨⟩, h⟩
  · rename_i slot slots hu
    split_ifs
    · exact ⟨by rintro _ ⟨⟩, h⟩
    · refine ⟨?_, fun other hother => ?_⟩
      · rintro _ ⟨⟩
        exact h slot (mem_of_updateFirst hu).1
      · rcases mem_updateFirst hu hother with rfl | hold
        · exact h slot (mem_of_updateFirst hu).1
        · exact h other hold

/-- A change of the slots that keeps the names. -/
theorem fits_map {slots : List MarketSlot} {f : MarketSlot → MarketSlot}
    (h : ∀ slot ∈ slots, FitsIn maxNameLen slot.name) (hf : ∀ slot, (f slot).name = slot.name) :
    ∀ slot ∈ slots.map f, FitsIn maxNameLen slot.name := by
  intro slot hslot
  obtain ⟨old, hold, rfl⟩ := List.mem_map.1 hslot
  rw [hf]
  exact h old hold

theorem fits_raidLaunch {raid raid' : Raid} {now rand : ℕ} {keys : List Key}
    (h : raidLaunch raid now rand keys = some raid') : FitsIn maxTextLen raid'.passcode := by
  simp only [raidLaunch] at h
  split_ifs at h
  cases h
  exact fitsIn_text _

/-- **An operation** keeps what fits. -/
theorem exec_filled (h : s.Filled) (hr : o.exec s c = some (s', r)) : s'.Filled := by
  refine ⟨?_, ?_⟩
  · by_cases ho : o.store = some .market
    · cases o <;> simp only [Op.store, Option.some.injEq, reduceCtorEq] at ho
      case marketTake d =>
        cases hr
        exact (fits_marketTake h.names d).2
      case marketAdd d tags price name =>
        simp only [Op.exec] at hr
        split at hr
        · cases hr
          exact h.names
        · rename_i hadd
          cases hr
          exact fits_marketAdd h.names hadd
      case marketDespawnAged | freezeTags | unfreezeTags =>
        cases hr
        exact fits_map h.names fun slot => by split_ifs <;> rfl
      case marketInit =>
        cases hr
        intro slot hslot
        rw [List.eq_of_mem_replicate hslot]
        decide
    · rw [(exec_frame hr).market ho]
      exact h.names
  · by_cases ho : o.store = some .raid
    · cases o <;> simp only [Op.store, Option.some.injEq, reduceCtorEq] at ho
      case raidLaunchAll | raidLaunchSelf =>
        simp only [Op.exec] at hr
        split at hr
        · cases hr
          exact h.passcode
        · rename_i hlaunch
          cases hr
          exact fits_raidLaunch hlaunch
      case raidClear | raidTimeout | raidEnd | raidRollback =>
        cases hr
        exact h.passcode
    · rw [(exec_frame hr).raid ho]
      exact h.passcode

/-- **What an operation brings** into a thread fits. -/
theorem exec_fills (h : s.Filled) (hr : o.exec s c = some (s', r)) : o.Fills r := by
  cases o with
  | marketFind d =>
    cases hr
    exact fun slot hslot => h.names slot (List.mem_of_find?_eq_some hslot)
  | marketTake d =>
    cases hr
    exact (fits_marketTake h.names d).1
  | marketSnapshot =>
    cases hr
    exact fun slot hslot => h.names slot (List.mem_of_mem_filter (List.mem_of_mem_take hslot))
  | roundLog =>
    cases hr
    simp only [Op.Fills, roundLog, List.length_take]
    omega
  | raidLaunchAll | raidLaunchSelf key =>
    simp only [Op.exec] at hr
    split at hr
    · cases hr
      rintro _ ⟨⟩
    · rename_i hlaunch
      cases hr
      rintro _ ⟨⟩
      exact fits_raidLaunch hlaunch
  | raidLookup key =>
    cases hr
    intro x hx
    simp only [raidLookup] at hx
    split_ifs at hx
    · obtain ⟨i, -, rfl⟩ := Option.map_eq_some_iff.1 hx
      exact h.passcode
    · cases hx
  | compose size =>
    cases hr
    exact fun hsize => fitsIn_cstr hsize _
  | _ => trivial

/-! ### What threads hold -/

/-- The items of a sandbox that have been read, and those that are marked. -/
def SandboxList.Fills : SandboxList → Prop
  | .opendir => True
  | .read _ _ items => items.length < maxInvenSize ∧ ∀ item ∈ items, FitsIn maxNameLen item.name
  | .mark item todo marked => FitItems (marked ++ item :: todo)

/-- An inventory that is about to be sent fits its packet. -/
def Inventory.Fills : Inventory → Prop
  | .list pc => pc.Fills
  | .lookup items | .send items _ => FitItems items

/-- So does the inventory that answers a rumor. -/
def Rumoring.Fills : Rumoring → Prop
  | .inventory pc => pc.Fills
  | _ => True

/-- So does the inventory that follows a full purse. -/
def FakeRich.Fills : FakeRich → Prop
  | .list _ pc => pc.Fills
  | .send _ items => FitItems items
  | _ => True

/-- The name of the listing in hand fits. -/
def Buy.Fills (pc : Buy) : Prop := ∀ slot ∈ pc.slot, FitsIn maxNameLen slot.name

/-- The escapes of a scoreboard fit. -/
def RoundEnd.Fills : RoundEnd → Prop
  | .keys escaped | .lookup escaped _ _ _ | .scoreboard escaped _ =>
    escaped.length ≤ maxScoreEscaped
  | _ => True

/-- The scoreboard that an escape may call for fits. -/
def Payoff.Fills : Payoff → Prop
  | .roundEnd pc => pc.Fills
  | _ => True

/-- The names of the listings to be sent fit. -/
def Reset.Fills : Reset → Prop
  | .marketSend slot todo => ∀ x ∈ slot :: todo, FitsIn maxNameLen x.name
  | _ => True

/-- What the reset of a timer sends fits. -/
def RoundEndTimer.Fills : RoundEndTimer → Prop
  | .reset pc => pc.Fills
  | _ => True

/-- The passcode of a raid on everybody fits. -/
def PeriodicRaid.Fills : PeriodicRaid → Prop
  | .announce passcode _ => FitsIn maxTextLen passcode
  | _ => True

/-- The passcode of a raid on oneself fits. -/
def SelfRaid.Fills : SelfRaid → Prop
  | .announce passcode _ => FitsIn maxTextLen passcode
  | _ => True

/-- The headline of a leak fits. -/
def Leak.Fills : Leak → Prop
  | .announce _ _ text => FitsIn maxTextLen text
  | _ => True

/-- The name of the document to be listed fits. -/
def Spawn.Fills : Spawn → Prop
  | .write doc | .add doc | .announce doc => FitsIn maxNameLen doc.name
  | _ => True

/-- The text of a hint fits. -/
def NpcSequence.Fills : NpcSequence → Prop
  | .hintSend _ text => FitsIn maxTextLen text
  | _ => True

/-- The reason of a refusal and the names of the listings to be sent fit. -/
def Login.Fills : Login → Prop
  | .refuse _ reason => FitsIn maxTextLen reason
  | .marketSend _ slot todo => ∀ x ∈ slot :: todo, FitsIn maxNameLen x.name
  | _ => True

/-- What a command holds fits its packets. -/
def Command.Fills : Command → Prop
  | .buy _ pc => pc.Fills
  | .inventory pc => pc.Fills
  | .rumor _ pc => pc.Fills
  | .payoff pc => pc.Fills
  | .selfRaid pc => pc.Fills
  | .leak pc => pc.Fills
  | .fakeRich pc => pc.Fills
  | .endround pc => pc.Fills
  | _ => True

/-- What the event thread holds fits its packets. -/
def Event.Fills : Event → Prop
  | .roundEnd pc => pc.Fills
  | .raid pc => pc.Fills
  | .leak pc => pc.Fills
  | .spawn pc => pc.Fills
  | .newsSend text => FitsIn maxTextLen text
  | _ => True

/-- What a thread holds fits the packets it is meant for. -/
def Thread.Fills : Thread → Prop
  | .login _ pc => pc.Fills
  | .session _ _ pc => pc.Fills
  | .event _ pc => pc.Fills
  | .npcSequence pc => pc.Fills
  | .roundEndTimer pc => pc.Fills
  | _ => True

/-! ### Programs -/

section Programs

variable {α β γ : Type} {P : α → Prop} {Q : β → Prop}

/-- What holds of a program that goes on, or that has returned. -/
def Next.Meets (P : α → Prop) (Q : β → Prop) : Next α β → Prop
  | .cont pc => P pc
  | .ret b => Q b
  | .fail _ _ => True

theorem meets_true (n : Next α β) : n.Meets (fun _ => True) fun _ => True := by
  cases n <;> trivial

/-- The action writes packets that fit, and what its result brings is fine with `P`. -/
structure Action.Fitting (P : α → Prop) (a : Action α) : Prop where
  packet : ∀ pkt ∈ a.op.packet, pkt.Fits
  next : ∀ r, a.op.Fills r → P (a.next r)

theorem Action.Fitting.map {a : Action α} {f : α → β} (h : a.Fitting P) (hf : ∀ x, P x → Q (f x)) :
    (a.map f).Fitting Q := ⟨h.packet, fun r hr => hf _ (h.next r hr)⟩

/-- An action that writes nothing. -/
theorem Action.Fitting.of_none {a : Action α} (hop : a.op.packet = none)
    (h : ∀ r, a.op.Fills r → P (a.next r)) : a.Fitting P :=
  ⟨by rw [hop]; rintro _ ⟨⟩, h⟩

/-- An action that writes one packet. -/
theorem Action.Fitting.of_some {a : Action α} (hop : a.op.packet = some pkt) (hpkt : pkt.Fits)
    (h : ∀ r, P (a.next r)) : a.Fitting P :=
  ⟨by rw [hop]; rintro _ ⟨⟩; exact hpkt, fun r _ => h r⟩

end Programs

variable {sock : ℕ} {key : Key}

theorem markNext_meets {marked todo : List InvenItem} (h : FitItems (marked ++ todo)) :
    (SandboxList.markNext marked todo).Meets SandboxList.Fills FitItems := by
  cases todo with
  | nil =>
    rw [List.append_nil] at h
    exact h
  | cons item todo => exact h

theorem readNext_meets {items : List InvenItem} {todo : List ℤ} (h : FitItems items) :
    (SandboxList.readNext items todo).Meets SandboxList.Fills FitItems := by
  cases todo with
  | nil => exact markNext_meets h
  | cons d todo =>
    rw [SandboxList.readNext]
    split_ifs with hlt
    · exact ⟨hlt, h.2⟩
    · exact markNext_meets h

theorem sandboxList_fitting {pc : SandboxList} (h : pc.Fills) :
    (sandboxList key pc).Fitting (Next.Meets SandboxList.Fills FitItems) := by
  have hnil : FitItems [] := ⟨Nat.zero_le _, List.forall_mem_nil _⟩
  cases pc with
  | opendir =>
    refine .of_none rfl fun r _ => ?_
    cases r with
    | none => exact hnil
    | some ids => exact readNext_meets hnil
  | read d todo items =>
    refine .of_none rfl fun r _ => ?_
    cases r with
    | none => exact readNext_meets ⟨h.1.le, h.2⟩
    | some df =>
      refine readNext_meets ⟨?_, List.forall_mem_append.2 ⟨h.2, List.forall_mem_singleton.2 ?_⟩⟩
      · rw [List.length_append]
        exact h.1
      · exact fitsIn_cstr (by decide) df.name
  | mark item todo marked =>
    refine .of_none rfl fun frozen _ => markNext_meets ⟨?_, fun x hx => ?_⟩
    · have hlen := h.1
      simp only [List.length_append, List.length_cons, List.length_nil] at hlen ⊢
      omega
    · rw [List.append_assoc] at hx
      rcases List.mem_append.1 hx with hx | hx
      · exact h.2 x (List.mem_append_left _ hx)
      · rcases List.mem_cons.1 hx with rfl | hx
        · exact h.2 item (List.mem_append_right _ List.mem_cons_self)
        · exact h.2 x (List.mem_append_right _ (List.mem_cons_of_mem _ hx))

theorem handleInventory_fitting {pc : Inventory} (h : pc.Fills) :
    (handleInventory sock key pc).Fitting (Next.Meets Inventory.Fills fun _ => True) := by
  cases pc with
  | list q =>
    rw [handleInventory]
    refine (sandboxList_fitting h).map ?_
    rintro (q | items | _) hn <;> exact hn
  | lookup items =>
    refine .of_none rfl fun r _ => ?_
    rcases r with rec | ⟨rec, offset⟩ <;> exact h
  | send items money => exact .of_some rfl h fun _ => trivial

theorem handleRumor_fitting {target : Key} {pc : Rumoring} (h : pc.Fills) :
    (handleRumor sock key target pc).Fitting (Next.Meets Rumoring.Fills fun _ => True) := by
  cases pc with
  | inventory q =>
    rw [handleRumor]
    refine (handleInventory_fitting h).map ?_
    rintro (q | _ | _) hn <;> exact hn
  | glitch => exact .of_some rfl trivial fun _ => trivial
  | enter =>
    refine .of_none rfl fun r _ => ?_
    cases r <;> trivial
  | lookup now =>
    refine .of_none rfl fun r _ => ?_
    simp only [handleRumor]
    split
    · trivial
    · split_ifs <;> trivial
  | _ => exact .of_none rfl fun _ _ => trivial

theorem handleFakeRich_fitting {pc : FakeRich} (h : pc.Fills) :
    (handleFakeRich sock key pc).Fitting (Next.Meets FakeRich.Fills fun _ => True) := by
  cases pc with
  | list rec q =>
    rw [handleFakeRich]
    refine (sandboxList_fitting h).map ?_
    rintro (q | items | _) hn <;> exact hn
  | send rec items => exact .of_some rfl h fun _ => trivial
  | note rec => exact .of_some rfl ⟨fitsIn_senders.1, fitsIn_pred _⟩ fun _ => trivial
  | lookup =>
    refine .of_none rfl fun r _ => ?_
    rcases r with rec | ⟨rec, offset⟩ <;> trivial
  | _ => exact .of_none rfl fun _ _ => trivial

theorem handleBuy_fitting {docId : ℤ} {pc : Buy} (h : pc.Fills) :
    (handleBuy sock key docId pc).Fitting (Next.Meets Buy.Fills fun _ => True) := by
  have hslot : ∀ {slot : MarketSlot}, FitsIn maxNameLen slot.name →
      ∀ x ∈ some slot, FitsIn maxNameLen x.name := by
    rintro slot hs _ ⟨⟩
    exact hs
  cases pc with
  | find =>
    refine .of_none rfl fun r hr => ?_
    simp only [handleBuy]
    split
    · trivial
    · split_ifs
      · trivial
      · exact hr
  | count slot | lookup slot =>
    refine .of_none rfl fun r _ => ?_
    simp only [handleBuy]
    split
    · first | exact h | trivial
    · split_ifs
      · trivial
      · first | exact h | exact (by rintro _ ⟨⟩)
  | take rec offset =>
    refine .of_none rfl fun r hr => ?_
    rcases r with (_ | _) | slot
    · trivial
    · trivial
    · exact hslot (hr slot rfl)
  | stat slot rec offset | move slot rec offset =>
    refine .of_none rfl fun r _ => ?_
    simp only [handleBuy]
    split_ifs <;> exact h
  | rollback slot => exact .of_none rfl fun _ _ => trivial
  | charge slot rec offset => exact .of_none rfl fun _ _ => h
  | reply slot rec => exact .of_some rfl (h slot rfl) fun _ => (by rintro _ ⟨⟩)
  | announce => exact .of_some rfl trivial fun _ => trivial

theorem lookupNext_fills {escaped : List ScoreEscaped} (h : escaped.length ≤ maxScoreEscaped)
    (rank : List ScoreRemaining) (keys : List Key) :
    (RoundEnd.lookupNext escaped rank keys).Fills := by
  induction keys with
  | nil => exact h
  | cons key keys ih =>
    rw [RoundEnd.lookupNext]
    split_ifs
    · exact ih
    · exact h

theorem fireRoundEndCountdown_fitting {text : Bytes} {pc : RoundEnd} (h : pc.Fills) :
    (fireRoundEndCountdown text pc).Fitting (Next.Meets RoundEnd.Fills fun _ => True) := by
  cases pc with
  | claim | timer =>
    refine .of_none rfl fun r _ => ?_
    cases r <;> trivial
  | log => exact .of_none rfl fun _ hr => hr
  | keys escaped => exact .of_none rfl fun keys _ => lookupNext_fills h [] keys
  | lookup escaped key todo rank =>
    refine .of_none rfl fun r _ => ?_
    simp only [fireRoundEndCountdown]
    split
    · exact lookupNext_fills h _ todo
    · split_ifs
      · exact lookupNext_fills h _ todo
      · exact lookupNext_fills h _ todo
  | scoreboard escaped rank =>
    exact .of_some rfl ⟨h, List.length_take_le _ _⟩ fun _ => trivial
  | hint => exact .of_some rfl ⟨fitsIn_senders.2.1, fitsIn_text _⟩ fun _ => trivial
  | release => exact .of_none rfl fun _ _ => trivial

theorem handlePayoff_fitting {pc : Payoff} (h : pc.Fills) :
    (handlePayoff sock key pc).Fitting (Next.Meets Payoff.Fills fun _ => True) := by
  cases pc with
  | roundEnd q =>
    rw [handlePayoff]
    refine (fireRoundEndCountdown_fitting h).map ?_
    rintro (q | _ | _) hn <;> exact hn
  | purge e rec offset q =>
    rw [handlePayoff]
    refine .of_none ?_ fun r _ => ?_
    · cases q <;> rfl
    · simp only [Action.map]
      split <;> trivial
  | lookup | commit rec offset =>
    refine .of_none rfl fun r _ => ?_
    rcases r with _ | ⟨_, _⟩ <;> trivial
  | update e rec offset => exact .of_none rfl fun _ _ => trivial
  | victory e => exact .of_some rfl (fitsIn_text _) fun _ => trivial
  | announce e => exact .of_some rfl ⟨fitsIn_senders.2.2.1, fitsIn_pred _⟩ fun _ => trivial
  | goalUpdate e =>
    refine .of_some rfl trivial fun _ => ?_
    simp only [handlePayoff]
    split_ifs <;> trivial

/-! ### Programs that hold no texts -/

/-- The operation writes a packet that fits, or nothing. -/
def Op.Sends (o : Op) : Prop := ∀ pkt ∈ o.packet, pkt.Fits

theorem purgeDocsIn_sends (f : Folder) (pc : Purge) : (purgeDocsIn f pc).op.Sends := by
  cases pc <;> rintro _ ⟨⟩

theorem burnUserByKey_sends (pc : Burn) : (burnUserByKey key pc).op.Sends := by
  cases pc with
  | purge q => exact purgeDocsIn_sends _ q
  | notify =>
    rintro _ ⟨⟩
    exact fitsIn_text _
  | _ => rintro _ ⟨⟩

theorem periodicRaidTimeoutThread_sends (pc : RaidTimeout) :
    (periodicRaidTimeoutThread pc).op.Sends := by
  cases pc with
  | burn key todo q => exact burnUserByKey_sends q
  | _ => rintro _ ⟨⟩

theorem handleMinigameSubmit_sends (passcode : Bytes) (pc : Minigame) :
    (handleMinigameSubmit sock key passcode pc).op.Sends := by
  cases pc with
  | burn serial q => exact burnUserByKey_sends q
  | reply serial =>
    rintro _ ⟨⟩
    trivial
  | _ => rintro _ ⟨⟩

theorem handleSell_sends (npcId : ℤ) (docIds : List ℤ) (pc : Sell) :
    (handleSell sock key npcId docIds pc).op.Sends := by
  cases pc <;> rintro _ ⟨⟩
  all_goals trivial

theorem handleDispose_sends (docId : ℤ) (pc : Dispose) :
    (handleDispose sock key docId pc).op.Sends := by
  cases pc <;> rintro _ ⟨⟩
  all_goals trivial

theorem checkBankruptcy_sends (pc : Bankruptcy) : (checkBankruptcy sock key pc).op.Sends := by
  cases pc with
  | send =>
    rintro _ ⟨⟩
    exact fitsIn_literals.2.2.1
  | _ => rintro _ ⟨⟩

theorem seedMarketAndNpc_sends (pc : Seed) : (seedMarketAndNpc pc).op.Sends := by
  cases pc <;> rintro _ ⟨⟩

theorem mainThread_sends (pc : Main) : (mainThread pc).op.Sends := by
  cases pc with
  | seed q => exact seedMarketAndNpc_sends q
  | _ => rintro _ ⟨⟩

theorem eventAgeNpcs_sends (pc : AgeNpcs) : (eventAgeNpcs pc).op.Sends := by
  cases pc <;> rintro _ ⟨⟩
  all_goals trivial

theorem eventAgeMarket_sends (pc : AgeMarket) : (eventAgeMarket pc).op.Sends := by
  cases pc <;> rintro _ ⟨⟩
  all_goals trivial

theorem leakRecoveryThread_sends (mask : Tags) (dur : ℕ) (pc : LeakRecovery) :
    (leakRecoveryThread mask dur pc).op.Sends := by
  cases pc <;> rintro _ ⟨⟩
  all_goals trivial

theorem clientDisconnect_sends (pc : Disconnect) : (clientDisconnect sock pc).op.Sends := by
  cases pc <;> rintro _ ⟨⟩

/-! ### Raids, rounds and events -/

theorem firePeriodicPoliceRaid_fitting {pc : PeriodicRaid} (h : pc.Fills) :
    (firePeriodicPoliceRaid pc).Fitting (Next.Meets PeriodicRaid.Fills fun _ => True) := by
  cases pc with
  | launch =>
    refine .of_none rfl fun r hr => ?_
    rcases r with _ | ⟨pendingCnt, passcode, serial⟩
    · trivial
    · simp only [firePeriodicPoliceRaid]
      split_ifs
      · trivial
      · exact hr _ rfl
  | announce passcode serial => exact .of_some rfl h fun _ => trivial
  | hint passcode serial => exact .of_some rfl ⟨fitsIn_senders.2.1, fitsIn_pred _⟩ fun _ => trivial
  | timer serial =>
    refine .of_none rfl fun r _ => ?_
    cases r <;> trivial
  | _ => exact .of_none rfl fun _ _ => trivial

theorem fireSelfPoliceRaid_fitting {pc : SelfRaid} (h : pc.Fills) :
    (fireSelfPoliceRaid sock key pc).Fitting (Next.Meets SelfRaid.Fills fun _ => True) := by
  cases pc with
  | launch =>
    refine .of_none rfl fun r hr => ?_
    rcases r with _ | ⟨passcode, serial⟩
    · trivial
    · exact hr _ rfl
  | announce passcode serial => exact .of_some rfl h fun _ => trivial
  | timer serial =>
    refine .of_none rfl fun r _ => ?_
    cases r <;> trivial
  | rollback => exact .of_none rfl fun _ _ => trivial

theorem resetNext_meets {slots : List MarketSlot}
    (h : ∀ slot ∈ slots, FitsIn maxNameLen slot.name) : (Reset.marketSendNext slots).Fills := by
  cases slots with
  | nil => trivial
  | cons slot slots => exact h

theorem npcSendNext_meets (npcs : List NPCSlot) :
    (Reset.npcSendNext npcs).Meets Reset.Fills fun _ => True := by
  cases npcs <;> trivial

theorem triggerRoundReset_fitting {pc : Reset} (h : pc.Fills) :
    (triggerRoundReset pc).Fitting (Next.Meets Reset.Fills fun _ => True) := by
  cases pc with
  | masterPurge q | userPurge name todo q =>
    refine ⟨purgeDocsIn_sends _ q, fun r _ => ?_⟩
    simp only [triggerRoundReset, Action.map]
    split
    · trivial
    · first | trivial | (cases todo <;> trivial)
  | users =>
    refine .of_none rfl fun names _ => ?_
    cases names <;> trivial
  | rumor => exact .of_none rfl fun _ _ => trivial
  | seed q =>
    refine ⟨seedMarketAndNpc_sends q, fun r _ => ?_⟩
    simp only [triggerRoundReset, Action.map]
    split <;> trivial
  | marker => exact .of_some rfl (fitsIn_text _) fun _ => trivial
  | marketSnapshot => exact .of_none rfl fun _ hr => resetNext_meets hr
  | marketSend slot todo =>
    exact .of_some rfl (h slot List.mem_cons_self) fun _ =>
      resetNext_meets fun x hx => h x (List.mem_cons_of_mem _ hx)
  | npcSnapshot => exact .of_none rfl fun npcs _ => npcSendNext_meets npcs
  | npcSend npc todo => exact .of_some rfl trivial fun _ => npcSendNext_meets todo
  | _ => exact .of_none rfl fun _ _ => trivial

theorem roundEndTimerThread_fitting {pc : RoundEndTimer} (h : pc.Fills) :
    (roundEndTimerThread pc).Fitting (Next.Meets RoundEndTimer.Fills fun _ => True) := by
  cases pc with
  | check =>
    refine .of_none rfl fun r _ => ?_
    cases r <;> trivial
  | reset q =>
    rw [roundEndTimerThread]
    refine (triggerRoundReset_fitting h).map ?_
    rintro (q | _ | _) hn <;> exact hn
  | _ => exact .of_none rfl fun _ _ => trivial

theorem firePublicLeak_fitting {pc : Leak} (h : pc.Fills) :
    (firePublicLeak pc).Fitting (Next.Meets Leak.Fills fun _ => True) := by
  cases pc with
  | present frozen =>
    refine .of_none rfl fun r _ => ?_
    simp only [firePublicLeak]
    split <;> trivial
  | headline mask dur => exact .of_none rfl fun _ hr => hr (by decide)
  | announce mask dur text => exact .of_some rfl h fun _ => trivial
  | malloc mask dur | thread mask dur =>
    refine .of_none rfl fun r _ => ?_
    cases r <;> trivial
  | _ => exact .of_none rfl fun _ _ => trivial

theorem eventSpawnMarket_fitting {pc : Spawn} (h : pc.Fills) :
    (eventSpawnMarket pc).Fitting (Next.Meets Spawn.Fills fun _ => True) := by
  cases pc with
  | full =>
    refine .of_none rfl fun r _ => ?_
    cases r <;> trivial
  | tags frozen =>
    refine .of_none rfl fun r _ => ?_
    simp only [eventSpawnMarket]
    split_ifs <;> trivial
  | name tags d price => exact .of_none rfl fun _ hr => hr (by decide)
  | write doc =>
    refine .of_none rfl fun r _ => ?_
    cases r
    · trivial
    · exact h
  | add doc =>
    refine .of_none rfl fun r _ => ?_
    cases r
    · trivial
    · exact h
  | announce doc => exact .of_some rfl h fun _ => trivial
  | _ => exact .of_none rfl fun _ _ => trivial

theorem eventDoNpcSequence_fitting {pc : NpcSequence} (h : pc.Fills) :
    (eventDoNpcSequence pc).Fitting (Next.Meets NpcSequence.Fills fun _ => True) := by
  cases pc with
  | full | add tags npcId bounty =>
    refine .of_none rfl fun r _ => ?_
    cases r <;> trivial
  | tags frozen =>
    refine .of_none rfl fun r _ => ?_
    simp only [eventDoNpcSequence]
    split_ifs <;> trivial
  | hint tags => exact .of_none rfl fun _ hr => hr (by decide)
  | hintSend tags text => exact .of_some rfl ⟨fitsIn_senders.2.2.2.1, h⟩ fun _ => trivial
  | announce tags npcId bounty => exact .of_some rfl trivial fun _ => trivial
  | _ => exact .of_none rfl fun _ _ => trivial

theorem afterRaid_fills (v : EventVars) : (Event.afterRaid v).Fills := by
  rw [Event.afterRaid]
  split_ifs <;> trivial

theorem afterNpc_fills (v : EventVars) : (Event.afterNpc v).Fills := by
  rw [Event.afterNpc]
  split_ifs <;> trivial

theorem afterSpawn_fills (v : EventVars) : (Event.afterSpawn v).Fills := by
  rw [Event.afterSpawn]
  split_ifs
  · trivial
  · exact afterNpc_fills v

theorem eventThreadFunc_fitting {v : EventVars} {pc : Event} (h : pc.Fills) :
    (eventThreadFunc v pc).Fitting fun x => x.2.Fills := by
  cases pc with
  | cap =>
    refine .of_none rfl fun r _ => ?_
    cases r <;> trivial
  | roundEnd q =>
    rw [eventThreadFunc]
    refine (fireRoundEndCountdown_fitting h).map ?_
    rintro (q | _ | _) hn <;> exact hn
  | ageNpcs q =>
    refine ⟨eventAgeNpcs_sends q, fun r _ => ?_⟩
    simp only [eventThreadFunc, Action.map]
    split <;> trivial
  | ageMarket q =>
    refine ⟨eventAgeMarket_sends q, fun r _ => ?_⟩
    simp only [eventThreadFunc, Action.map]
    split <;> trivial
  | raidDue =>
    refine .of_none rfl fun r _ => ?_
    simp only [eventThreadFunc]
    split_ifs
    · trivial
    · exact afterRaid_fills v
  | raid q =>
    rw [eventThreadFunc]
    refine (firePeriodicPoliceRaid_fitting h).map ?_
    rintro (q | _ | _) hn <;> exact hn
  | raidSchedule now => exact .of_none rfl fun _ _ => afterRaid_fills v
  | leakDice =>
    refine .of_none rfl fun r _ => ?_
    simp only [eventThreadFunc]
    split_ifs <;> trivial
  | leak q =>
    rw [eventThreadFunc]
    refine (firePublicLeak_fitting h).map ?_
    rintro (q | _ | _) hn <;> exact hn
  | spawn q =>
    rw [eventThreadFunc]
    refine (eventSpawnMarket_fitting h).map ?_
    rintro (q | _ | _) hn
    · exact hn
    · exact afterSpawn_fills v
    · exact afterSpawn_fills v
  | npcThread => exact .of_none rfl fun _ _ => afterNpc_fills v
  | news => exact .of_none rfl fun _ hr => hr (by decide)
  | newsSend text => exact .of_some rfl ⟨fitsIn_senders.2.2.2.2, h⟩ fun _ => trivial
  | _ => exact .of_none rfl fun _ _ => trivial

/-! ### Client handlers -/

theorem marketSendNext_fills {slots : List MarketSlot}
    (h : ∀ slot ∈ slots, FitsIn maxNameLen slot.name) : (Login.marketSendNext key slots).Fills := by
  cases slots with
  | nil => trivial
  | cons slot slots => exact h

theorem clientLogin_fitting {pc : Login} (h : pc.Fills) :
    (clientLogin sock pc).Fitting (Next.Meets Login.Fills fun _ => True) := by
  cases pc with
  | recv =>
    refine .of_none rfl fun r _ => ?_
    simp only [clientLogin]
    split <;> trivial
  | duplicate key =>
    refine .of_none rfl fun r _ => ?_
    cases r
    · trivial
    · exact fitsIn_literals.1
  | lookup key =>
    refine .of_none rfl fun r _ => ?_
    rcases r with _ | ⟨rec, offset⟩
    · trivial
    · simp only [clientLogin]
      split_ifs
      · exact fitsIn_literals.2.1
      · trivial
  | reply key rec goal => exact .of_some rfl trivial fun _ => trivial
  | marketSnapshot key => exact .of_none rfl fun _ hr => marketSendNext_fills hr
  | marketSend key slot todo =>
    exact .of_some rfl (h slot List.mem_cons_self) fun _ =>
      marketSendNext_fills fun x hx => h x (List.mem_cons_of_mem _ hx)
  | npcSnapshot key =>
    refine .of_none rfl fun r _ => ?_
    cases r <;> trivial
  | npcSend key npc todo =>
    refine .of_some rfl trivial fun _ => ?_
    cases todo <;> trivial
  | frozenMask key =>
    refine .of_none rfl fun r _ => ?_
    simp only [clientLogin]
    split_ifs <;> trivial
  | frozenSend key mask =>
    exact .of_some rfl fitsIn_literals.2.2.2 fun _ => trivial
  | refuse code reason => exact .of_some rfl h fun _ => trivial
  | _ => exact .of_none rfl fun _ _ => trivial

theorem dispatch_fills (req : Request) : (Command.dispatch req).Fills := by
  cases req with
  | chat text =>
    simp only [Command.dispatch]
    split_ifs <;> trivial
  | sell npcId count docIds =>
    simp only [Command.dispatch]
    split_ifs <;> trivial
  | buy docId => exact fun _ h => by cases h
  | _ => trivial

/-- A handler inside the loop. -/
theorem resume_fills {α : Type} {P : α → Prop} {f : α → Command} {check : Bool} {n : Next α}
    (hf : ∀ pc, P pc → (f pc).Fills) (h : n.Meets P fun _ => True) :
    (Command.resume f check n).Meets Command.Fills fun _ => True := by
  rcases n with pc | _ | _
  · exact hf pc h
  · cases check <;> trivial
  · trivial

theorem clientLoop_fitting {pc : Command} (h : pc.Fills) :
    (clientLoop sock key pc).Fitting (Next.Meets Command.Fills fun _ => True) := by
  cases pc with
  | recv =>
    refine .of_none rfl fun r _ => ?_
    rcases r with _ | req
    · trivial
    · exact dispatch_fills req
  | error code reason check =>
    refine .of_some rfl (fitsIn_text _) fun _ => ?_
    cases check <;> trivial
  | bankruptcy q =>
    refine ⟨checkBankruptcy_sends q, fun r _ => ?_⟩
    simp only [clientLoop, Action.map]
    split <;> trivial
  | buy docId q =>
    rw [clientLoop]
    exact (handleBuy_fitting h).map fun n => resume_fills fun _ hq => hq
  | sell npcId docIds q =>
    exact ⟨handleSell_sends npcId docIds q, fun r _ =>
      resume_fills (fun _ _ => trivial) (meets_true _)⟩
  | dispose docId q =>
    exact ⟨handleDispose_sends docId q, fun r _ =>
      resume_fills (fun _ _ => trivial) (meets_true _)⟩
  | inventory q =>
    rw [clientLoop]
    exact (handleInventory_fitting h).map fun n => resume_fills fun _ hq => hq
  | rumor target q =>
    rw [clientLoop]
    exact (handleRumor_fitting h).map fun n => resume_fills fun _ hq => hq
  | payoff q =>
    rw [clientLoop]
    exact (handlePayoff_fitting h).map fun n => resume_fills fun _ hq => hq
  | chat text => exact .of_some rfl ⟨fitsIn_key key, fitsIn_text _⟩ fun _ => trivial
  | minigame passcode q =>
    exact ⟨handleMinigameSubmit_sends passcode q, fun r _ =>
      resume_fills (fun _ _ => trivial) (meets_true _)⟩
  | selfRaid q =>
    rw [clientLoop]
    exact (fireSelfPoliceRaid_fitting h).map fun n => resume_fills fun _ hq => hq
  | leak q =>
    rw [clientLoop]
    refine (firePublicLeak_fitting h).map ?_
    rintro (q | (_ | _) | _) hn <;> exact hn
  | fakeRich q =>
    rw [clientLoop]
    exact (handleFakeRich_fitting h).map fun n => resume_fills fun _ hq => hq
  | endround q =>
    rw [clientLoop]
    exact (fireRoundEndCountdown_fitting h).map fun n => resume_fills fun _ hq => hq

/-! ### The server -/

/-- A thread that ends when its program returns. -/
theorem Thread.resume_fills {α : Type} {P : α → Prop} {f : α → Thread} {n : Next α}
    (hf : ∀ pc, P pc → (f pc).Fills) (h : n.Meets P fun _ => True) :
    (Thread.resume f n).Fills := by
  rcases n with pc | _ | _
  · exact hf pc h
  · trivial
  · trivial

/-- **Every action of a thread** writes a packet that fits, and keeps what the thread holds. -/
theorem action_fitting (h : th.Fills) (ha : th.action = some a) : a.Fitting Thread.Fills := by
  cases th with
  | main pc =>
    cases ha
    exact ⟨mainThread_sends pc, fun r _ =>
      Thread.resume_fills (fun _ _ => trivial) (meets_true _)⟩
  | login sock pc =>
    cases ha
    refine (clientLogin_fitting h).map ?_
    rintro (pc | _ | _) hn
    · exact hn
    · rename_i key
      cases key <;> trivial
    · trivial
  | session sock key pc =>
    cases ha
    refine (clientLoop_fitting h).map ?_
    rintro (pc | _ | _) hn <;> exact hn
  | disconnect sock pc =>
    cases ha
    exact ⟨clientDisconnect_sends pc, fun r _ =>
      Thread.resume_fills (fun _ _ => trivial) (meets_true _)⟩
  | event v pc =>
    cases ha
    exact (eventThreadFunc_fitting h).map fun x hx => hx
  | npcSequence pc =>
    cases ha
    exact (eventDoNpcSequence_fitting h).map fun n => Thread.resume_fills fun _ hq => hq
  | leakRecovery mask dur pc =>
    cases ha
    exact ⟨leakRecoveryThread_sends mask dur pc, fun r _ =>
      Thread.resume_fills (fun _ _ => trivial) (meets_true _)⟩
  | raidTimeout serial pc =>
    cases ha
    exact ⟨periodicRaidTimeoutThread_sends pc, fun r _ =>
      Thread.resume_fills (fun _ _ => trivial) (meets_true _)⟩
  | roundEndTimer pc =>
    cases ha
    exact (roundEndTimerThread_fitting h).map fun n => Thread.resume_fills fun _ hq => hq
  | finished => cases ha

theorem spawned_fills {u : Thread} (hu : u ∈ o.spawned r) : u.Fills := by
  obtain ⟨n, rfl⟩ | ⟨sock, -, rfl⟩ := spawned_start hu
  · cases n <;> trivial
  · trivial

/-- **The boards, the raid and the threads** hold what fits. -/
def Filled : Server → Prop := Pool.Inv Shared.Filled fun _ th => th.Fills

theorem filled_boot (cwd : Dir) (files : Files) (users : UserDb) (clock : ℕ) :
    Filled (boot cwd files users clock) where
  shared := by
    have hcode : FitsIn maxTextLen [] := by decide
    exact ⟨by rintro slot ⟨⟩, hcode⟩
  thread t th hth := by
    obtain rfl := List.mem_singleton.1 (List.mem_of_getElem? hth)
    trivial

/-- **Every step keeps it.** -/
theorem filled_step {l : Label} (hF : Filled p) (hn : server.next p l = some p') : Filled p' := by
  cases l with
  | run t c =>
    refine Pool.inv_run hF hn (fun th sh th' new hth hs => ?_) fun _ _ _ _ _ _ _ _ _ _ hu => hu
    obtain ⟨a, r, ha, hr, rfl, rfl⟩ := threadStep_eq_some.1 hs
    have hfit := action_fitting (hF.thread t th hth) ha
    exact ⟨exec_filled hF.shared hr, hfit.next r (exec_fills hF.shared hr),
      fun u hu => spawned_fills hu⟩
  | env seconds => exact Pool.inv_env hF hn ⟨hF.shared.names, hF.shared.passcode⟩ fun _ hu => hu

/-- What is written is the packet of the operation. -/
theorem packet_of_wrote (h : .wrote x pkt ∈ o.connEvents s c) : o.packet = some pkt := by
  have hsent : ∀ {l : List ℕ} {pkt' : Packet},
      .wrote x pkt ∈ (l.map fun sock => (sock, pkt')).map (fun w => ConnEvent.wrote w.1 w.2) →
        pkt' = pkt := by
    intro l pkt' hmem
    obtain ⟨w, hw, heq⟩ := List.mem_map.1 hmem
    obtain ⟨sock, -, rfl⟩ := List.mem_map.1 hw
    cases heq
    rfl
  cases o with
  | packetSend sock pkt' => exact congrArg some (hsent (l := [sock]) h)
  | broadcast pkt' => exact congrArg some (hsent h)
  | unicastToKey key pkt' =>
    obtain ⟨w, hw, heq⟩ := List.mem_map.1 h
    obtain ⟨sock, -, rfl⟩ := Option.map_eq_some_iff.1 (Option.mem_toList.1 hw)
    cases heq
    rfl
  | accept => cases List.mem_singleton.1 h
  | packetRecv sock =>
    simp only [Op.connEvents] at h
    split at h
    · cases List.mem_singleton.1 h
    · cases h
  | _ => cases h

theorem fits_wrote {l : Label} (hF : Filled p) (h : .wrote x pkt ∈ connEventsAt p l) :
    pkt.Fits := by
  rw [connEventsAt] at h
  cases ho : opAt p l with
  | none =>
    rw [ho] at h
    cases h
  | some o =>
    rw [ho] at h
    obtain ⟨th, hth, ho⟩ := Option.bind_eq_some_iff.1 ho
    obtain ⟨a, ha, rfl⟩ := Option.map_eq_some_iff.1 ho
    cases l with
    | run t c =>
      exact (action_fitting (hF.thread t th hth) ha).packet pkt (packet_of_wrote h)
    | env seconds => cases hth

/-- What the server holds fits, and so does what it has written. -/
theorem filled_of_reach {cwd : Dir} {files : Files} {users : UserDb} {clock : ℕ}
    {q : Server × List ConnEvent}
    (hq : streamServer.Reach System.anyStep (boot cwd files users clock, []) q) :
    Filled q.1 ∧ ∀ (x : ℕ) (pkt : Packet), .wrote x pkt ∈ q.2 → pkt.Fits := by
  refine hq.invariant (I := fun q => Filled q.1 ∧ ∀ (x : ℕ) (pkt : Packet), .wrote x pkt ∈ q.2 →
    pkt.Fits) ⟨filled_boot cwd files users clock, by rintro x pkt ⟨⟩⟩ fun q l q' _ hI _ hn => ?_
  obtain ⟨hn, hhist⟩ := System.withHistory_next.1 hn
  refine ⟨filled_step hI.1 hn, fun x pkt h => ?_⟩
  rw [hhist] at h
  rcases List.mem_append.1 h with h | h
  · exact hI.2 x pkt h
  · exact fits_wrote hI.1 h

theorem mem_sent {hist : List ConnEvent} (h : pkt ∈ sent x hist) : .wrote x pkt ∈ hist := by
  obtain ⟨ev, hev, hpkt⟩ := List.mem_filterMap.1 h
  obtain ⟨hmem, rfl⟩ := mem_connection hev
  cases ev with
  | wrote fd pkt' =>
    cases hpkt
    exact hmem
  | _ => cases hpkt

/-- Alice buys a document and asks for her inventory. -/
def ownScript : List Label :=
  startUp ++ connect 5 ++ logIn 2 (Key.ofBytes (utf8 "alice")) ++
    receive 2 (.buy 47) :: steps 2 10 ++ receive 2 .inven :: steps 2 5

/-- What Alice owns then. -/
def ownPacket : Packet :=
  .invenInfo [⟨47, tagPersonal ||| tagCustomer, utf8 "퇴직 요원 신상정보", false⟩] 200

/-- A run in which she is sent it, and every number is an `int32_t`. -/
theorem exists_ownRun : ∃ q, streamServer.Reach System.anyStep (freshBoot, []) q ∧
    ownPacket ∈ sent 5 q.2 ∧ ∀ pkt ∈ sent 5 q.2, ∀ n ∈ pkt.ints, InInt32 n := by
  obtain ⟨q, hq, hf⟩ := streamServer.exists_reach_of_any System.anyStep (freshBoot, [])
    ownScript (fun q => decide (ownPacket ∈ sent 5 q.2) &&
      decide (∀ pkt ∈ sent 5 q.2, ∀ n ∈ pkt.ints, InInt32 n)) (by decide +kernel)
  simp only [Bool.and_eq_true, decide_eq_true_eq] at hf
  exact ⟨q, hq, hf⟩

/-- **Every packet fits**: in every run, the texts of whatever is written to a client leave room for
their NUL, and its counts are within their arrays. -/
theorem fits_of_reach {cwd : Dir} {files : Files} {users : UserDb} {clock : ℕ}
    {q : Server × List ConnEvent}
    (hq : streamServer.Reach System.anyStep (boot cwd files users clock, []) q)
    (h : .wrote x pkt ∈ q.2) : pkt.Fits := (filled_of_reach hq).2 x pkt h

/-- What Alice is sent fits. -/
theorem fits_alice : ∃ q, streamServer.Reach System.anyStep (freshBoot, []) q ∧
    .wrote 5 ownPacket ∈ q.2 ∧ ownPacket.Fits := by
  obtain ⟨q, hq, hmem, -⟩ := exists_ownRun
  exact ⟨q, hq, mem_sent hmem, fits_of_reach hq (mem_sent hmem)⟩

/-! ### What the client reads -/

/-- **From any part of a stream that has arrived**, the client reads the packets that have arrived
whole. -/
theorem frames_take {e e' : ByteOrder} {pkts : List Packet} (h : ∀ pkt ∈ pkts, pkt.Sendable)
    (k : ℕ) : (frames e' ((pkts.flatMap (Packet.bytes e)).take k)).map (·.uiPacket e') =
      (pkts.map Packet.received).take (k / packetSize) := by
  induction pkts generalizing k with
  | nil => rw [List.flatMap_nil, List.take_nil, frames_nil, List.map_nil, List.map_nil,
      List.take_nil]
  | cons pkt pkts ih =>
    obtain ⟨hpkt, hpkts⟩ := List.forall_mem_cons.1 h
    by_cases hk : k < packetSize
    · have hlen := List.length_take_le k ((pkt :: pkts).flatMap (Packet.bytes e))
      rw [frames_of_lt (hlen.trans_lt hk), Nat.div_eq_of_lt hk, List.map_nil, List.take_zero]
    · rw [not_lt] at hk
      have hlen : (Packet.bytes e pkt).length = packetSize := by simp [Packet.bytes, Message.bytes]
      rw [List.flatMap_cons, List.take_append, List.take_of_length_le (hlen.trans_le hk), hlen,
        Packet.bytes, frames_append, List.map_cons, packet_arrives hpkt, ih hpkts,
        Nat.div_eq_sub_div packetSize_pos hk, List.map_cons, List.take_succ_cons]

/-- **The client reads what the server has written** to its connection, in order and packet by
packet, whatever part of it has arrived, as long as the numbers are `int32_t` (and no send was
interrupted by another one to the same socket, as in every run of `server`). -/
theorem received_of_reach {cwd : Dir} {files : Files} {users : UserDb} {clock : ℕ}
    {q : Server × List ConnEvent}
    (hq : streamServer.Reach System.anyStep (boot cwd files users clock, []) q)
    (hints : ∀ pkt ∈ sent x q.2, ∀ n ∈ pkt.ints, InInt32 n) (e e' : ByteOrder) (k : ℕ) :
    (frames e' (((sent x q.2).flatMap (Packet.bytes e)).take k)).map (·.uiPacket e') =
      ((sent x q.2).map Packet.received).take (k / packetSize) :=
  frames_take (fun pkt hpkt => ⟨hints pkt hpkt,
    fits_message ((filled_of_reach hq).2 x pkt (mem_sent hpkt))⟩) k

/-- The client of Alice reads her inventory from a server of the other byte order. -/
theorem received_alice : ∃ q, streamServer.Reach System.anyStep (freshBoot, []) q ∧
    ownPacket ∈ sent 5 q.2 ∧
    ∀ k, (frames .big (((sent 5 q.2).flatMap (Packet.bytes .little)).take k)).map
        (·.uiPacket .big) = ((sent 5 q.2).map Packet.received).take (k / packetSize) := by
  obtain ⟨q, hq, hmem, hints⟩ := exists_ownRun
  exact ⟨q, hq, hmem, fun k => received_of_reach hq hints .little .big k⟩

end UnderFlow
