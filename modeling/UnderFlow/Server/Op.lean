import UnderFlow.Server.State

/-!
# Atomic operations

A thread of the server is a sequence of *operations*: critical sections, file operations, calls of
the system.  `Op` lists them, `Op.Ret` is the type of what each returns, and `Op.exec` is its effect
on the shared state.  An operation that has to wait (for a mutex, for a time) is not enabled:
`exec` is `none`.

What the outside decides (a failing call, the value of `rand()`, the next request, the order in
which a directory is read) is in the `Choice` of the step.

Sending a packet changes nothing the server reads again; who receives it is in
`Op.deliveries`.  A send is one step that is always enabled: that it returns (the source sends with
a blocking `send`, a broadcast even inside `clients_mutex`), and that no packet of another thread
comes to lie inside the packet on its socket, is assumed here.  `Op.delivers` names these
operations, so that a result about what happens in the end can say that it rests on the first.
-/

namespace UnderFlow

/-- What the outside decides in one step. -/
structure Choice where
  /-- The call succeeds (system calls, allocations, thread creation). -/
  ok : Bool := true
  /-- The values of `rand()`. -/
  rand : List ℕ := []
  /-- The text the server composes from its tables of texts. -/
  text : Bytes := []
  /-- The order in which `readdir` returns the documents of a directory. -/
  order : List ℤ := []
  /-- What `recv` returns; `none` when the connection is over. -/
  request : Option Request := none
  /-- The descriptor `accept` returns. -/
  fd : ℕ := 0
  /-- What indeterminate variables hold. -/
  indeterminate : UserRecord × UserDb := (⟨Key.empty, 0, 0, Vector.replicate _ 0⟩, [])

/-- A directory of documents, as the code names it. -/
inductive Folder where
  /-- `MASTER_DIR`. -/
  | master
  /-- The directory of a key. -/
  | user (key : Key)
  /-- An entry of `USERS_DIR`. -/
  | entry (name : Bytes)
  deriving DecidableEq

/-- The directory a folder resolves to. -/
def Folder.dir (cwd : Dir) : Folder → Dir
  | .master => masterDir cwd
  | .user key => userDir cwd key.bytes
  | .entry name => userDir cwd name

/-- The threads started besides the client handlers. -/
inductive NewThread where
  | event
  | npcSequence
  | leakRecovery (mask : Tags) (durationSec : ℕ)
  | raidTimeout (serial : ℕ)
  | roundEndTimer
  deriving DecidableEq

/-- The operations of the threads, under the names of the calls and critical sections they stand
for. -/
inductive Op where
  -- market.c
  | marketFind (docId : ℤ)
  | marketTake (docId : ℤ)
  | marketAdd (docId : ℤ) (tags : Tags) (price : ℤ) (name : Bytes)
  | marketIsFull
  | marketFrozenMask
  | marketActiveTags
  | marketDespawnAged
  | marketSnapshot
  | freezeTags (tags : Tags)
  | unfreezeTags (tags : Tags)
  | isTagFrozen (tags : Tags)
  | marketInit
  | npcFind (npcId : ℤ)
  | npcTake (npcId : ℤ)
  | npcAdd (npcId : ℤ) (requiredTags : Tags) (bounty : ℤ)
  | npcIsFull
  | npcDespawnAged (baseAgeSec stepSec : ℤ)
  | npcSnapshot
  | npcInit
  -- sandbox.c, file operation by file operation
  | stat (f : Folder) (docId : ℤ)
  | rename (src dst : Folder) (docId : ℤ)
  | unlink (f : Folder) (docId : ℤ)
  | read (f : Folder) (docId : ℤ)
  | writeMaster (doc : DocFile)
  | mkdir (f : Folder)
  | opendir (f : Folder)
  | opendirUsers
  | sandboxCount (key : Key)
  -- userdb.c
  | userdbFind (key : Key)
  | userdbAppend (rec : UserRecord)
  | userdbUpdateAt (offset : ℕ) (rec : UserRecord)
  | userdbUpdateIndeterminate
  | userdbBurnAt (offset : ℕ)
  | userdbResetRound (money : ℤ)
  -- the critical sections of server_main.c
  | roundPayoff (key : Key) (money : ℤ)
  | roundGoal
  | roundEndClaim
  | roundEndRelease
  | roundLog
  | roundEndActive
  | roundReset
  | capGraceExpired (graceSec : ℕ)
  | rumorEnter
  | rumorLeave (cdUntil : Option ℕ)
  | rumorReset
  | raidLaunchAll
  | raidLaunchSelf (key : Key)
  | raidLookup (key : Key)
  | raidClear (i : ℕ)
  | raidTimeout
  | raidEnd
  | raidRollback
  | clientDuplicate (sock : ℕ) (key : Key)
  | clientAdd (sock : ℕ)
  | clientRegister (sock : ℕ) (key : Key)
  | clientRemove (sock : ℕ)
  | clientKeys
  | broadcast (pkt : Packet)
  | unicastToKey (key : Key) (pkt : Packet)
  -- the counters of events.c
  | nextDocId
  | nextNpcId
  -- the system
  | packetSend (sock : ℕ) (pkt : Packet)
  | packetRecv (sock : ℕ)
  | accept
  | close (sock : ℕ)
  | pthreadCreate (t : NewThread)
  | malloc
  | time
  | wait (wake : ℕ)
  | rand
  /-- A name, a headline or a hint made from the tables of texts, for a buffer of `size` bytes. -/
  | compose (size : ℕ)

/-- The result of an operation. -/
@[reducible] def Op.Ret : Op → Type
  | marketFind _ => Option MarketSlot
  | marketTake _ => Except TakeError MarketSlot
  | marketAdd _ _ _ _ => Bool
  | marketIsFull => Bool
  | marketFrozenMask => Tags
  | marketActiveTags => Tags
  | marketDespawnAged => List ℤ
  | marketSnapshot => List MarketSlot
  | isTagFrozen _ => Bool
  | npcFind _ => Option NPCSlot
  | npcTake _ => Option NPCSlot
  | npcAdd _ _ _ => Bool
  | npcIsFull => Bool
  | npcDespawnAged _ _ => List ℤ
  | npcSnapshot => List NPCSlot
  | stat _ _ => Bool
  | rename _ _ _ => Bool
  | unlink _ _ => Option DocFile
  | read _ _ => Option DocFile
  | writeMaster _ => Bool
  | mkdir _ => Bool
  | opendir _ => Option (List ℤ)
  | opendirUsers => List Bytes
  | sandboxCount _ => Option ℕ
  | userdbFind _ => Except UserRecord (UserRecord × ℕ)
  | userdbAppend _ => Bool
  | userdbUpdateAt _ _ => Option UserRecord
  | userdbUpdateIndeterminate => Unit
  | userdbBurnAt _ => Bool
  | userdbResetRound _ => Bool
  | roundPayoff _ _ => Except ℤ (ℤ × ℤ × ℕ)
  | roundGoal => ℤ
  | roundEndClaim => Bool
  | roundLog => List ScoreEscaped
  | roundEndActive => Bool
  | capGraceExpired _ => Bool
  | rumorEnter => Except ℕ ℕ
  | raidLaunchAll => Option (ℕ × Bytes × ℕ)
  | raidLaunchSelf _ => Option (Bytes × ℕ)
  | raidLookup _ => Option (ℕ × Bytes × ℕ)
  | raidTimeout => List Key
  | clientDuplicate _ _ => Bool
  | clientAdd _ => Bool
  | clientKeys => List Key
  | nextDocId => ℤ
  | nextNpcId => ℤ
  | packetRecv _ => Option Request
  | accept => ℕ
  | pthreadCreate _ => Bool
  | malloc => Bool
  | time => ℕ
  | rand => ℕ → ℕ
  | compose _ => Bytes
  | _ => Unit

/-- The documents of a directory in the order chosen for this reading. -/
def readdirOrder (order ids : List ℤ) : List ℤ := if order.isPerm ids then order else ids

/-- The effect and the result of an operation; `none` while the operation has to wait. -/
def Op.exec : (o : Op) → Shared → Choice → Option (Shared × o.Ret)
  | .marketFind d, s, _ => some (s, UnderFlow.marketFind s.market d)
  | .marketTake d, s, _ =>
    let p := UnderFlow.marketTake s.market d
    some ({ s with market := p.2 }, p.1)
  | .marketAdd d t p n, s, c =>
    match UnderFlow.marketAdd s.market s.clock (c.rand.getD 0 0) d t p n with
    | none => some (s, false)
    | some m => some ({ s with market := m }, true)
  | .marketIsFull, s, _ => some (s, UnderFlow.marketIsFull s.market)
  | .marketFrozenMask, s, _ => some (s, s.market.frozenTags)
  | .marketActiveTags, s, _ => some (s, UnderFlow.marketActiveTags s.market)
  | .marketDespawnAged, s, _ =>
    let p := UnderFlow.marketDespawnAged s.market s.clock maxMarketSlots
    some ({ s with market := p.2 }, p.1)
  | .marketSnapshot, s, _ => some (s, UnderFlow.marketSnapshot s.market maxMarketSlots)
  | .freezeTags t, s, _ => some ({ s with market := UnderFlow.freezeTags s.market t }, ())
  | .unfreezeTags t, s, _ => some ({ s with market := UnderFlow.unfreezeTags s.market t }, ())
  | .isTagFrozen t, s, _ => some (s, UnderFlow.isTagFrozen s.market t)
  | .marketInit, s, _ => some ({ s with market := UnderFlow.marketInit }, ())
  | .npcFind n, s, _ => some (s, UnderFlow.npcFind s.npcs n)
  | .npcTake n, s, _ =>
    match UnderFlow.npcTake s.npcs n with
    | none => some (s, none)
    | some p => some ({ s with npcs := p.2 }, some p.1)
  | .npcAdd n t b, s, _ =>
    match UnderFlow.npcAdd s.npcs s.clock n t b with
    | none => some (s, false)
    | some npcs => some ({ s with npcs := npcs }, true)
  | .npcIsFull, s, _ => some (s, UnderFlow.npcIsFull s.npcs)
  | .npcDespawnAged base step, s, _ =>
    let p := UnderFlow.npcDespawnAged s.npcs s.clock base step maxNpcSlots
    some ({ s with npcs := p.2 }, p.1)
  | .npcSnapshot, s, _ => some (s, UnderFlow.npcSnapshot s.npcs maxNpcSlots)
  | .npcInit, s, _ => some ({ s with npcs := UnderFlow.npcInit }, ())
  | .stat f d, s, c => some (s, c.ok && (s.files.get (f.dir s.cwd) d).isSome)
  | .rename src dst d, s, c =>
    match (if c.ok then s.files.rename (src.dir s.cwd) (dst.dir s.cwd) d else none) with
    | none => some (s, false)
    | some fs => some ({ s with files := fs }, true)
  | .unlink f d, s, c =>
    if c.ok then
      let p := s.files.unlink (f.dir s.cwd) d
      some ({ s with files := p.2 }, p.1)
    else some (s, none)
  | .read f d, s, c => some (s, if c.ok then s.files.get (f.dir s.cwd) d else none)
  | .writeMaster doc, s, c =>
    match (if c.ok then s.files.write (masterDir s.cwd) doc else none) with
    | none => some (s, false)
    | some fs => some ({ s with files := fs }, true)
  | .mkdir f, s, c =>
    match (if c.ok then s.files.mkdir (f.dir s.cwd) else none) with
    | none => some (s, false)
    | some fs => some ({ s with files := fs }, true)
  | .opendir f, s, c =>
    some (s, if c.ok then (s.files.opendir (f.dir s.cwd)).map (readdirOrder c.order) else none)
  | .opendirUsers, s, c => some (s, if c.ok then s.files.userEntries s.cwd else [])
  | .sandboxCount k, s, c =>
    some (s, if c.ok then (s.files.opendir (userDir s.cwd k.bytes)).map List.length else none)
  | .userdbFind k, s, c =>
    match (if c.ok then UnderFlow.userdbFind s.users k else none) with
    | none => some (s, .error c.indeterminate.1)
    | some p => some (s, .ok p)
  | .userdbAppend rec, s, c =>
    if c.ok then some ({ s with users := (UnderFlow.userdbAppend s.users rec).1 }, true)
    else some (s, false)
  | .userdbUpdateAt off rec, s, c =>
    if c.ok then some ({ s with users := UnderFlow.userdbUpdateAt s.users off rec }, s.users[off]?)
    else some (s, none)
  | .userdbUpdateIndeterminate, s, c => some ({ s with users := c.indeterminate.2 }, ())
  | .userdbBurnAt off, s, c =>
    if c.ok then some ({ s with users := UnderFlow.userdbBurnAt s.users off }, true)
    else some (s, false)
  | .userdbResetRound m, s, c =>
    if c.ok then some ({ s with users := UnderFlow.userdbResetRound s.users m }, true)
    else some (s, false)
  | .roundPayoff k m, s, _ =>
    let p := UnderFlow.roundPayoff s.round s.clock k m
    some ({ s with round := p.2 }, p.1)
  | .roundGoal, s, _ => some (s, s.round.goalMoney)
  | .roundEndClaim, s, _ =>
    if s.round.endActive then some (s, false)
    else some ({ s with round := { s.round with endActive := true } }, true)
  | .roundEndRelease, s, _ => some ({ s with round := { s.round with endActive := false } }, ())
  | .roundLog, s, _ => some (s, UnderFlow.roundLog s.round)
  | .roundEndActive, s, _ => some (s, s.round.endActive)
  | .roundReset, s, _ => some ({ s with round := {} }, ())
  | .capGraceExpired grace, s, _ =>
    some (s, s.round.capReachedAt != 0 && decide (s.round.capReachedAt + grace ≤ s.clock))
  | .rumorEnter, s, _ =>
    if s.rumor.locked then none
    else if s.clock < s.rumor.cdUntil then some (s, .error (s.rumor.cdUntil - s.clock))
    else some ({ s with rumor := { s.rumor with locked := true } }, .ok s.clock)
  | .rumorLeave cd, s, _ => some ({ s with rumor := ⟨cd.getD s.rumor.cdUntil, false⟩ }, ())
  | .rumorReset, s, _ =>
    if s.rumor.locked then none else some ({ s with rumor := ⟨0, false⟩ }, ())
  | .raidLaunchAll, s, c =>
    let keys := UnderFlow.clientKeys s.clients
    match raidLaunch s.raid s.clock (c.rand.getD 0 0) keys with
    | none => some (s, none)
    | some r => some ({ s with raid := r }, some (keys.length, r.passcode, r.serial))
  | .raidLaunchSelf k, s, c =>
    match raidLaunch s.raid s.clock (c.rand.getD 0 0) [k] with
    | none => some (s, none)
    | some r => some ({ s with raid := r }, some (r.passcode, r.serial))
  | .raidLookup k, s, _ => some (s, UnderFlow.raidLookup s.raid s.clock k)
  | .raidClear i, s, _ => some ({ s with raid := UnderFlow.raidClear s.raid i }, ())
  | .raidTimeout, s, _ =>
    let p := UnderFlow.raidTimeout s.raid
    some ({ s with raid := p.2 }, p.1)
  | .raidEnd, s, _ => some ({ s with raid := { s.raid with deadline := 0 } }, ())
  | .raidRollback, s, _ => some ({ s with raid := UnderFlow.raidRollback s.raid }, ())
  | .clientDuplicate sock k, s, _ => some (s, UnderFlow.clientDuplicate s.clients sock k)
  | .clientAdd sock, s, c =>
    match (if c.ok then UnderFlow.clientAdd s.clients sock else none) with
    | none => some (s, false)
    | some cs => some ({ s with clients := cs }, true)
  | .clientRegister sock k, s, _ =>
    some ({ s with clients := UnderFlow.clientRegister s.clients sock k }, ())
  | .clientRemove sock, s, _ =>
    some ({ s with clients := UnderFlow.clientRemove s.clients sock }, ())
  | .clientKeys, s, _ => some (s, UnderFlow.clientKeys s.clients)
  | .broadcast _, s, _ => some (s, ())
  | .unicastToKey _ _, s, _ => some (s, ())
  | .nextDocId, s, _ => some ({ s with docIdCounter := s.docIdCounter + 1 }, s.docIdCounter + 1)
  | .nextNpcId, s, _ => some ({ s with npcIdCounter := s.npcIdCounter + 1 }, s.npcIdCounter + 1)
  | .packetSend _ _, s, _ => some (s, ())
  | .packetRecv _, s, c => some (s, c.request)
  | .accept, s, c =>
    if c.fd = 0 ∨ c.fd ∈ s.openFds then none
    else some ({ s with openFds := c.fd :: s.openFds }, c.fd)
  | .close sock, s, _ => some ({ s with openFds := s.openFds.erase sock }, ())
  | .pthreadCreate _, s, c => some (s, c.ok)
  | .malloc, s, c => some (s, c.ok)
  | .time, s, _ => some (s, s.clock)
  | .wait wake, s, _ => if wake ≤ s.clock then some (s, ()) else none
  | .rand, s, c => some (s, fun i => c.rand.getD i 0)
  | .compose size, s, c => some (s, cstr size c.text)

/-- One step of a program: an operation, and what the program does with the result. -/
structure Action (β : Type) where
  /-- The operation. -/
  op : Op
  /-- What is done with its result. -/
  next : op.Ret → β

/-- How a program goes on after an operation: at another point, back to its caller, or back to its
caller with an error answer to be sent. -/
inductive Next (α : Type) (β : Type := Unit) where
  | cont (a : α)
  | ret (b : β)
  | fail (code : ErrorCode) (reason : Bytes)

/-- The same operation, with the rest of the program changed. -/
def Action.map {β γ : Type} (f : β → γ) (a : Action β) : Action γ := ⟨a.op, fun r => f (a.next r)⟩

/-- The packets an operation writes, with the sockets they are written to. -/
def Op.deliveries (s : Shared) : Op → List (ℕ × Packet)
  | .packetSend sock pkt => [(sock, pkt)]
  | .broadcast pkt => (clientSockets s.clients).map fun sock => (sock, pkt)
  | .unicastToKey key pkt => ((clientSocketOf s.clients key).map fun sock => (sock, pkt)).toList
  | _ => []

/-- The operation waits for receivers, in the source: it returns when they have read enough. -/
def Op.delivers : Op → Bool
  | .packetSend _ _ | .broadcast _ | .unicastToKey _ _ => true
  | _ => false

/-- The packets of some deliveries that go to a connection. -/
def packetsTo (x : ℕ) (ws : List (ℕ × Packet)) : List Packet :=
  ws.filterMap fun w => if w.1 = x then some w.2 else none

variable {s : Shared} {x sock : ℕ} {pkt : Packet}

theorem packetsTo_send : packetsTo x ((Op.packetSend sock pkt).deliveries s) =
    if x = sock then [pkt] else [] := by
  by_cases hx : x = sock
  · simp [packetsTo, Op.deliveries, hx]
  · simp [packetsTo, Op.deliveries, hx, Ne.symm hx]

/-- A broadcast reaches every slot in use once. -/
theorem packetsTo_broadcast (hnodup : (clientSockets s.clients).Nodup) :
    packetsTo x ((Op.broadcast pkt).deliveries s) =
      if x ∈ clientSockets s.clients then [pkt] else [] := by
  simp only [packetsTo, Op.deliveries, List.filterMap_map]
  generalize clientSockets s.clients = ys at hnodup ⊢
  induction ys with
  | nil => rfl
  | cons y ys ih =>
    have ih := ih (List.nodup_cons.1 hnodup).2
    by_cases hx : y = x
    · subst hx
      have hno := (List.nodup_cons.1 hnodup).1
      simpa [hno] using ih
    · simpa [hx, Ne.symm hx] using ih

/-- The result of `userdb_find`. -/
theorem exec_find {s s' : Shared} {c : Choice} {key : Key} {r}
    (h : (Op.userdbFind key).exec s c = some (s', r)) :
    s' = s ∧ ((c.ok = true ∧ ∃ p, userdbFind s.users key = some p ∧ r = .ok p) ∨
      ((c.ok = true → userdbFind s.users key = none) ∧ r = .error c.indeterminate.1)) := by
  simp only [Op.exec] at h
  split at h
  · rename_i hf
    cases h
    refine ⟨rfl, .inr ⟨fun hok => by simpa [hok] using hf, rfl⟩⟩
  · rename_i p hf
    cases h
    split_ifs at hf with hok
    exact ⟨rfl, .inl ⟨hok, p, hf, rfl⟩⟩

end UnderFlow
