import UnderFlow.Server.Footprint

/-!
# Isolation of sandboxes

A key is spliced unchecked into the paths of its sandbox.  The commands of a player stay out of the
sandbox of another player, and out of the master directory, exactly when the two keys lead from the
directory of the users to different places (`isolated_iff`).

* `Command.filesOf` : outside a purchase, a command touches no file outside the sandbox of its key.
* `exec_keeps`, `exec_blind` : such an operation changes no other directory, and sees none.
* `isolated_of_plain`, `isolated_iff_of_no_parent` : keys without `..`.
* `not_isolated` : the key `../master`.
-/

namespace UnderFlow

variable {s s' : Shared} {c : Choice} {o : Op} {key k₁ k₂ : Key} {cwd : Dir}

/-! ### Keys apart -/

/-- The command is inside `sandbox_buy`, where a document leaves the master directory. -/
def Command.purchasing : Command → Bool
  | .buy _ (.stat _ _ _) | .buy _ (.move _ _ _) => true
  | _ => false

/-- The files agree outside the sandbox of the key and the master directory. -/
def Files.AgreeBut (cwd : Dir) (key : Key) (fs fs' : Files) : Prop :=
  fs'.dirs = fs.dirs ∧
    ∀ d, d ≠ userDir cwd key.bytes → d ≠ masterDir cwd → fs'.docs d = fs.docs d

/-- The documents of `k₁` are others than those of `k₂` and those for sale, and no command of `k₁`
deletes (`keeps`) or observes (`blind`) one of those. -/
structure Isolated (cwd : Dir) (k₁ k₂ : Key) : Prop where
  users : ∀ d₁ d₂, resolve cwd (userDocPath k₁.bytes d₁) ≠ resolve cwd (userDocPath k₂.bytes d₂)
  master : ∀ d₁ d₂, resolve cwd (userDocPath k₁.bytes d₁) ≠ resolve cwd (masterDocPath d₂)
  keeps : ∀ (p p' : Server) (t sock : ℕ) (c : Choice) (pc : Command), p.shared.cwd = cwd →
    p.threads[t]? = some (.session sock k₁ pc) → pc.purchasing = false →
    server.next p (.run t c) = some p' → ∀ d,
      p'.shared.files.get (userDir cwd k₂.bytes) d = p.shared.files.get (userDir cwd k₂.bytes) d ∧
      p'.shared.files.get (masterDir cwd) d = p.shared.files.get (masterDir cwd) d
  blind : ∀ (p p' : Server) (t sock : ℕ) (c : Choice) (pc : Command) (fs : Files),
    p.shared.cwd = cwd → p.threads[t]? = some (.session sock k₁ pc) → pc.purchasing = false →
    Files.AgreeBut cwd k₂ p.shared.files fs → server.next p (.run t c) = some p' →
    ∃ q', server.next ⟨{ p.shared with files := fs }, p.threads⟩ (.run t c) = some q' ∧
      q'.threads = p'.threads

/-- Where a key leads to from the directory of the users: some levels up, then down. -/
def Key.landing (cwd : Dir) (key : Key) : Dir :=
  Path.land (cwd ++ [utf8 "data", utf8 "users"]) (Path.climb dot (key.bytes.splitOn slash))

/-- The first key leads neither to where the second does, nor to the documents for sale. -/
def Apart (cwd : Dir) (k₁ k₂ : Key) : Prop :=
  k₁.landing cwd ≠ k₂.landing cwd ∧ k₁.landing cwd ≠ cwd ++ [utf8 "data", utf8 "master"]

/-! ### The operations of a command -/

/-- The operation touches no file outside the sandbox of the key. -/
def Op.FilesOf (key : Key) : Op → Prop
  | .stat f _ | .read f _ | .unlink f _ | .opendir f => f = .user key
  | .sandboxCount k => k = key
  | .rename _ _ _ | .writeMaster _ | .mkdir _ | .opendirUsers => False
  | _ => True

theorem purgeDocsIn_filesOf (pc : Purge) : (purgeDocsIn (.user key) pc).op.FilesOf key := by
  cases pc <;> rfl

theorem burnUserByKey_filesOf (pc : Burn) : (burnUserByKey key pc).op.FilesOf key := by
  cases pc with
  | purge pc => exact purgeDocsIn_filesOf pc
  | _ => trivial

theorem sandboxList_filesOf (pc : SandboxList) : (sandboxList key pc).op.FilesOf key := by
  cases pc <;> trivial

theorem fireRoundEndCountdown_filesOf (text : Bytes) (pc : RoundEnd) :
    (fireRoundEndCountdown text pc).op.FilesOf key := by
  cases pc <;> trivial

theorem handleInventory_filesOf (sock : ℕ) (pc : Inventory) :
    (handleInventory sock key pc).op.FilesOf key := by
  cases pc with
  | list pc => exact sandboxList_filesOf pc
  | _ => trivial

/-- **Outside a purchase a command touches no file outside the sandbox of its key.** -/
theorem Command.filesOf (sock : ℕ) {pc : Command} (h : pc.purchasing = false) :
    (clientLoop sock key pc).op.FilesOf key := by
  cases pc with
  | buy d q => cases q <;> trivial
  | rumor k q =>
    cases q with
    | inventory q => exact handleInventory_filesOf sock q
    | _ => trivial
  | payoff q =>
    cases q with
    | purge e rec off q => exact purgeDocsIn_filesOf q
    | roundEnd q => exact fireRoundEndCountdown_filesOf _ q
    | _ => trivial
  | minigame code q =>
    cases q with
    | burn serial q => exact burnUserByKey_filesOf q
    | _ => trivial
  | fakeRich q =>
    cases q with
    | list rec q => exact sandboxList_filesOf q
    | _ => trivial
  | inventory q => exact handleInventory_filesOf sock q
  | endround q => exact fireRoundEndCountdown_filesOf _ q
  | bankruptcy q | sell _ _ q | dispose _ q | selfRaid q | leak q => cases q <;> trivial
  | _ => trivial

/-- Such an operation changes no other directory. -/
theorem exec_keeps {r : o.Ret} (ho : o.FilesOf key) (h : o.exec s c = some (s', r)) {d : Dir}
    (hd : d ≠ userDir s.cwd key.bytes) (i : ℤ) : s'.files.get d i = s.files.get d i := by
  by_cases hst : o.store = some .files
  · cases o <;> simp only [Op.store, Option.some.injEq, reduceCtorEq] at hst <;>
      simp only [Op.FilesOf] at ho
    subst ho
    simp only [Op.exec] at h
    split_ifs at h
    · cases h
      rw [Files.get_unlink, if_neg]
      rintro ⟨rfl, -⟩
      exact hd rfl
    · cases h
      rfl
  · rw [(exec_frame h).files hst]

/-- Such an operation sees no other directory. -/
theorem exec_blind {fs : Files} (ho : o.FilesOf key) (hdirs : fs.dirs = s.files.dirs)
    (hdocs : fs.docs (userDir s.cwd key.bytes) = s.files.docs (userDir s.cwd key.bytes)) :
    (o.exec { s with files := fs } c).map Prod.snd = (o.exec s c).map Prod.snd := by
  have hget : ∀ i, fs.get (userDir s.cwd key.bytes) i = s.files.get (userDir s.cwd key.bytes) i :=
    fun i => by rw [Files.get, Files.get, hdocs]
  have hopen : fs.opendir (userDir s.cwd key.bytes) = s.files.opendir
    (userDir s.cwd key.bytes) := by
    rw [Files.opendir, Files.opendir, hdirs, hdocs]
  cases o <;> simp only [Op.FilesOf] at ho <;> simp only [Op.exec] <;> (try subst ho) <;>
    (try simp only [Folder.dir, hget, hopen]) <;> (try split) <;> (try split) <;>
    simp [Files.unlink_fst, hget]

/-! ### Keys and paths -/

theorem userDir_eq_landing : userDir cwd key.bytes = key.landing cwd := by
  rw [userDir_eq_walk, Path.walk_eq_climb, usersDir_eq, Key.landing]

theorem apart_iff : Apart cwd k₁ k₂ ↔ userDir cwd k₁.bytes ≠ userDir cwd k₂.bytes ∧
    userDir cwd k₁.bytes ≠ masterDir cwd := by
  rw [Apart, userDir_eq_landing, userDir_eq_landing, masterDir_eq]

/-- **Sandboxes are isolated exactly when the keys lead to different places.** -/
theorem isolated_iff (cwd : Dir) (k₁ k₂ : Key) : Isolated cwd k₁ k₂ ↔ Apart cwd k₁ k₂ := by
  rw [apart_iff]
  constructor
  · intro h
    refine ⟨fun he => h.users 0 0 ?_, fun he => h.master 0 0 ?_⟩
    · rw [resolve_userDocPath, resolve_userDocPath, he]
    · rw [resolve_userDocPath, resolve_masterDocPath, he]
  · rintro ⟨hu, hm⟩
    refine ⟨fun d₁ d₂ he => hu ?_, fun d₁ d₂ he => hm ?_, ?_, ?_⟩
    · rw [resolve_userDocPath, resolve_userDocPath] at he
      exact (List.append_inj' he rfl).1
    · rw [resolve_userDocPath, resolve_masterDocPath] at he
      exact (List.append_inj' he rfl).1
    · intro p p' t sock c pc hcwd hth hpc hn d
      obtain ⟨th, a, r, hth', ha, hr, -⟩ := server_run hn
      obtain rfl := Option.some.inj (hth.symm.trans hth')
      have ho : a.op.FilesOf k₁ := by
        cases ha
        exact Command.filesOf sock hpc
      subst hcwd
      exact ⟨exec_keeps ho hr hu.symm d, exec_keeps ho hr hm.symm d⟩
    · intro p p' t sock c pc fs hcwd hth hpc hfs hn
      obtain ⟨th, a, r, hth', ha, hr, hthreads⟩ := server_run hn
      obtain rfl := Option.some.inj (hth.symm.trans hth')
      subst hcwd
      have ho : a.op.FilesOf k₁ := by
        cases ha
        exact Command.filesOf sock hpc
      have hblind : (a.op.exec { p.shared with files := fs } c).map Prod.snd = some r := by
        rw [exec_blind ho hfs.1 (hfs.2 _ hu hm), hr]
        rfl
      obtain ⟨⟨sh, r'⟩, hr', rfl⟩ := Option.map_eq_some_iff.1 hblind
      refine ⟨_, Pool.next_run.2 ⟨_, sh, _, _, hth,
        threadStep_eq_some.2 ⟨a, r', ha, hr', rfl, rfl⟩, rfl⟩,
        hthreads.symm⟩

/-- Different plain keys are isolated. -/
theorem isolated_of_plain (h₁ : k₁.Plain) (h₂ : k₂.Plain) (hne : k₁ ≠ k₂) :
    Isolated cwd k₁ k₂ :=
  (isolated_iff cwd k₁ k₂).2 (apart_iff.2
    ⟨fun he => hne (userDir_inj h₁ h₂ he), userDir_ne_masterDir h₁⟩)

/-- The names on the way a key leads. -/
def Key.names (key : Key) : List Bytes :=
  (key.bytes.splitOn slash).filter fun c => c ≠ [] ∧ c ≠ [dot]

/-- Keys without `..` are isolated exactly when their names differ. -/
theorem isolated_iff_of_no_parent (h₁ : [dot, dot] ∉ k₁.bytes.splitOn slash)
    (h₂ : [dot, dot] ∉ k₂.bytes.splitOn slash) : Isolated cwd k₁ k₂ ↔ k₁.names ≠ k₂.names := by
  have hland : ∀ k : Key, [dot, dot] ∉ k.bytes.splitOn slash →
      k.landing cwd = cwd ++ utf8 "data" :: utf8 "users" :: k.names := by
    intro k hk
    rw [Key.landing, Path.climb_of_not_mem hk, Path.land_zero, List.append_assoc]
    rfl
  rw [isolated_iff, Apart, hland k₁ h₁, hland k₂ h₂]
  have hne : utf8 "users" ≠ utf8 "master" := by decide +kernel
  simp [hne]

/-! ### A key that is no plain name -/

/-- A player with the key `../master` disposes of a document that is for sale. -/
def escapeScript : List Label :=
  startUp ++ connect 5 ++ logIn 2 (Key.ofBytes (utf8 "../master")) ++ receive 2 (.dispose 124) ::
    steps 2 2

/-- The document is deleted, and still listed. -/
theorem not_isolated : ∃ p, server.Reach System.anyStep freshBoot p ∧
    p.shared.files.get (masterDir []) 124 = none ∧ (marketFind p.shared.market 124).isSome ∧
    ¬ Isolated [] (Key.ofBytes (utf8 "../master")) (Key.ofBytes (utf8 "alice")) := by
  obtain ⟨p, hp, hf⟩ := server.exists_reach_of_any System.anyStep freshBoot escapeScript
    (fun p => (p.shared.files.get (masterDir []) 124).isNone &&
      (marketFind p.shared.market 124).isSome) (by decide +kernel)
  rw [Bool.and_eq_true, Option.isNone_iff_eq_none] at hf
  refine ⟨p, hp, hf.1, hf.2, fun h => ((isolated_iff _ _ _).1 h).2 ?_⟩
  decide +kernel

end UnderFlow
