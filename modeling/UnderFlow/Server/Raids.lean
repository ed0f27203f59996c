import UnderFlow.Server.Rounds

/-!
# Police raids

`fire_periodic_police_raid`, `fire_self_police_raid`, `periodic_raid_timeout_thread`,
`handle_minigame_submit` and `burn_user_by_key` of `server_main.c`.  The points that act for a raid
carry its number `serial`.
-/

namespace UnderFlow

/-! ### Burning an account -/

/-- The program points of `burn_user_by_key`. -/
inductive Burn where
  | lookup
  | burn (offset : ℕ)
  | purge (pc : Purge)
  | notify

/-- `burn_user_by_key`: the record is burned, the sandbox emptied, and the player told. -/
def burnUserByKey (key : Key) : Burn → Action (Next Burn)
  | .lookup => ⟨.userdbFind key, fun
      -- an account that is not found is purged and told all the same
      | .error _ => .cont (.purge .opendir)
      | .ok (_, offset) => .cont (.burn offset)⟩
  | .burn offset => ⟨.userdbBurnAt offset, fun _ => .cont (.purge .opendir)⟩
  | .purge pc => (purgeDocsIn (.user key) pc).map fun
      | .cont pc => .cont (.purge pc)
      | _ => .cont .notify
  | .notify => ⟨.unicastToKey key (.gameOver (cstr maxTextLen (utf8
      "경찰 추적망에 포착되었습니다! 계정 데이터가 영구 소각됩니다."))), fun _ => .ret ()⟩

/-! ### The timeout -/

/-- The program points of `periodic_raid_timeout_thread`. -/
inductive RaidTimeout where
  | start
  | sleep (wake : ℕ)
  | snapshot
  | burn (key : Key) (todo : List Key) (pc : Burn)

/-- The next victim. -/
def RaidTimeout.burnNext : List Key → Next RaidTimeout
  | [] => .ret ()
  | key :: todo => .cont (.burn key todo .lookup)

/-- `periodic_raid_timeout_thread`: who has not answered in time is burned. -/
def periodicRaidTimeoutThread : RaidTimeout → Action (Next RaidTimeout)
  | .start => ⟨.time, fun now => .cont (.sleep (now + periodicRaidTimeLimitSec))⟩
  | .sleep wake => ⟨.wait wake, fun _ => .cont .snapshot⟩
  | .snapshot => ⟨.raidTimeout, fun victims => RaidTimeout.burnNext victims⟩
  | .burn key todo pc => (burnUserByKey key pc).map fun
      | .cont pc => .cont (.burn key todo pc)
      | _ => RaidTimeout.burnNext todo

/-! ### The launches -/

/-- The program points of `fire_periodic_police_raid`. -/
inductive PeriodicRaid where
  | launch
  | cancel
  | announce (passcode : Bytes) (serial : ℕ)
  | hint (passcode : Bytes) (serial : ℕ)
  | timer (serial : ℕ)
  | rollback

/-- `fire_periodic_police_raid`: a raid on everybody who is logged in. -/
def firePeriodicPoliceRaid : PeriodicRaid → Action (Next PeriodicRaid)
  | .launch => ⟨.raidLaunchAll, fun
      | none => .ret ()
      | some (pendingCnt, passcode, serial) =>
        -- with nobody logged in there is no raid
        if pendingCnt = 0 then .cont .cancel else .cont (.announce passcode serial)⟩
  | .cancel => ⟨.raidEnd, fun _ => .ret ()⟩
  | .announce passcode serial =>
      ⟨.broadcast (.policeRaid passcode periodicRaidTimeLimitSec), fun _ =>
        .cont (.hint passcode serial)⟩
  | .hint passcode serial => ⟨.broadcast (.chat (utf8 "[ALERT]") (cstr (maxTextLen - 1)
      (utf8 "경찰 추적망 활성화! " ++ decimal periodicRaidTimeLimitSec ++
        utf8 "초 안에 우회 암호 '" ++ passcode.take 32 ++
        utf8 "'를 정확히 입력하지 못하면 계정이 영구 소각됩니다."))), fun _ => .cont (.timer serial)⟩
  | .timer serial => ⟨.pthreadCreate (.raidTimeout serial), fun ok =>
      if ok then .ret () else .cont .rollback⟩
  | .rollback => ⟨.raidRollback, fun _ => .ret ()⟩

/-- The program points of `fire_self_police_raid`. -/
inductive SelfRaid where
  | launch
  | announce (passcode : Bytes) (serial : ℕ)
  | timer (serial : ℕ)
  | rollback

/-- `fire_self_police_raid`: a raid on the player who asked for it. -/
def fireSelfPoliceRaid (sock : ℕ) (key : Key) : SelfRaid → Action (Next SelfRaid)
  | .launch => ⟨.raidLaunchSelf key, fun
      | none => .fail .invalidSession (utf8 "이미 진행 중인 경찰 레이드가 있습니다.")
      | some (passcode, serial) => .cont (.announce passcode serial)⟩
  | .announce passcode serial =>
      ⟨.packetSend sock (.policeRaid passcode periodicRaidTimeLimitSec), fun _ =>
        .cont (.timer serial)⟩
  | .timer serial => ⟨.pthreadCreate (.raidTimeout serial), fun ok =>
      if ok then .ret () else .cont .rollback⟩
  | .rollback => ⟨.raidRollback, fun _ =>
      .fail .invalidSession (utf8 "레이드 타이머 생성 실패.")⟩

/-! ### The answer -/

/-- The program points of `handle_minigame_submit`. -/
inductive Minigame where
  | lookup
  | clearOk (i serial : ℕ)
  | reply (serial : ℕ)
  | clearWrong (i serial : ℕ)
  | burn (serial : ℕ) (pc : Burn)

/-- `handle_minigame_submit`: the entry is found in one critical section and cleared in another. -/
def handleMinigameSubmit (sock : ℕ) (key : Key) (passcode : Bytes) :
    Minigame → Action (Next Minigame)
  | .lookup => ⟨.raidLookup key, fun
      | none => .fail .invalidSession (utf8 "현재 활성화된 미니게임이 없습니다.")
      | some (i, current, serial) =>
        if passcode = current then .cont (.clearOk i serial) else .cont (.clearWrong i serial)⟩
  -- the entry at `i` is cleared unseen: the raid may have ended meanwhile
  | .clearOk i serial => ⟨.raidClear i, fun _ => .cont (.reply serial)⟩
  | .reply _ => ⟨.packetSend sock .minigameOk, fun _ => .ret ()⟩
  | .clearWrong i serial => ⟨.raidClear i, fun _ => .cont (.burn serial .lookup)⟩
  | .burn serial pc => (burnUserByKey key pc).map fun
      | .cont pc => .cont (.burn serial pc)
      | .ret () => .ret ()
      | .fail code reason => .fail code reason

end UnderFlow
