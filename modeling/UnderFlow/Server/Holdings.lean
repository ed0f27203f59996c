import UnderFlow.Server.Entries
import UnderFlow.Server.Documents

/-!
# Sequences of calls on the sandboxes

The functions of `sandbox.c` that change directories, called in any order.

* `Holdings` : what a history of calls says about a directory.
* `SandboxKept`, `kept_call` : what every call keeps of the directories.
* `viewsAgree_reach` : the views of a sandbox agree after any sequence of calls.
* `Tree.Shows.exec`, `Tree.Shows.reach` : the documents by number (`Files`) are what the calls leave
  of the directories by name.
-/

namespace UnderFlow

/-! ### Sequences of calls -/

/-- A call that changes directories. -/
inductive SandboxCall where
  | masterWriteDoc (docId : Int32) (tags : Tags) (basePrice : Int32) (name : Bytes)
  | sandboxBuy (key : Key) (docId : Int32)
  | sandboxDispose (key : Key) (docId : Int32)
  | sandboxPurgeUser (key : Key) (order : List Bytes)

/-- The directories after a call, or `none` when it returns -1. -/
def SandboxCall.exec (cwd : Dir) (t : Tree) : SandboxCall → Option Tree
  | .masterWriteDoc docId tags basePrice name =>
    t.masterWriteDoc cwd ⟨docId.toInt, tags, basePrice.toInt, name⟩
  | .sandboxBuy key docId => t.sandboxBuy cwd key docId.toInt
  | .sandboxDispose key docId => t.sandboxDispose cwd key docId.toInt
  | .sandboxPurgeUser key order => some (t.sandboxPurgeUser cwd key order)

/-- Calls in any order.  The system may refuse one, which then changes nothing. -/
def sandboxCalls (cwd : Dir) : System Tree (SandboxCall × Bool) where
  next t l := some (if l.2 then (l.1.exec cwd t).getD t else t)

/-- A call is recorded with its success. -/
def callEvents (cwd : Dir) (t : Tree) (l : SandboxCall × Bool) : List (SandboxCall × Bool) :=
  [(l.1, l.2 && (l.1.exec cwd t).isSome)]

/-- What a history of calls says about a directory: the document written last for each number, and
what has been bought into the directory and neither disposed of nor purged, each number with the
document that was written for it when it was bought. -/
structure Holdings where
  /-- What was last written under an id. -/
  written : ℤ → Option DocFile := fun _ => none
  /-- What was bought and not disposed of. -/
  held : List (ℤ × Option DocFile) := []

/-- What a call that succeeded changes. -/
def Holdings.record (cwd d : Dir) (L : Holdings) : SandboxCall × Bool → Holdings
  | (.masterWriteDoc docId tags basePrice name, true) =>
    let doc : DocFile := ⟨docId.toInt, tags, basePrice.toInt, name⟩
    { L with written := Function.update L.written docId.toInt (some doc) }
  | (.sandboxBuy key docId, true) =>
    if userDir cwd key.bytes = d then
      { L with held := (docId.toInt, L.written docId.toInt) :: L.held }
    else L
  | (.sandboxDispose key docId, true) =>
    if userDir cwd key.bytes = d then { L with held := L.held.filter fun e => e.1 ≠ docId.toInt }
    else L
  | (.sandboxPurgeUser key _, true) =>
    if userDir cwd key.bytes = d then { L with held := [] } else L
  | (_, false) => L

/-- What a history of calls leaves. -/
def holdings (cwd d : Dir) (hist : List (SandboxCall × Bool)) : Holdings :=
  hist.foldl (Holdings.record cwd d) {}

/-- No document is bought into the directory while a document of its number is held there. -/
def NotHeld (cwd d : Dir) (p : Tree × List (SandboxCall × Bool)) : SandboxCall × Bool → Prop
  | (.sandboxBuy key docId, true) => userDir cwd key.bytes = d →
      (p.1.sandboxBuy cwd key docId.toInt).isSome = true →
        docId.toInt ∉ (holdings cwd d p.2).held.map Prod.fst
  | _ => True

instance (cwd d : Dir) (p : Tree × List (SandboxCall × Bool)) (l : SandboxCall × Bool) :
    Decidable (NotHeld cwd d p l) :=
  match l with
  | (.sandboxBuy _ _, true) => inferInstanceAs (Decidable (_ → _ → _))
  | (.sandboxBuy _ _, false) => .isTrue trivial
  | (.masterWriteDoc _ _ _ _, _) => .isTrue trivial
  | (.sandboxDispose _ _, _) => .isTrue trivial
  | (.sandboxPurgeUser _ _, _) => .isTrue trivial

/-- **The views of a sandbox agree** with what is held. -/
structure ViewsAgree (cwd : Dir) (key : Key) (t : Tree) (held : List (ℤ × Option DocFile)) :
    Prop where
  /-- The number in the name of a document is read as it was printed. -/
  parsed : ∀ id : Int32, atoi ((docName id.toInt).drop 4) = id.toInt
  nodup : (held.map Prod.fst).Nodup
  written : ∀ e ∈ held, ∃ doc, e.2 = some doc ∧ doc.docId = e.1
  count : ∀ order, t.sandboxCount cwd key order = some held.length
  has : ∀ id : Int32, t.sandboxHas cwd key id.toInt = true ↔ id.toInt ∈ held.map Prod.fst
  read : ∀ (id : Int32) (doc : DocFile),
    t.sandboxReadDoc cwd key id.toInt = some doc ↔ (id.toInt, some doc) ∈ held
  list : ∀ (max : ℤ) (order : List Bytes), held.length ≤ max →
    (t.sandboxList cwd key max order).Perm (held.filterMap fun e => e.2.map Tree.invenItem)
  /-- A name that fits into its buffer is listed as it is. -/
  named : ∀ doc : DocFile, doc.name.length < maxNameLen → 0 ∉ doc.name →
    Tree.invenItem doc = ⟨doc.docId, doc.tags, doc.name, false⟩

/-- A document under its own 32-bit number. -/
def Numbered (e : ℤ × DocFile) : Prop := e.2.docId = e.1 ∧ ∃ id : Int32, e.1 = id.toInt

/-- What every call keeps: the master directory holds written documents, and the sandbox what is
held. -/
structure SandboxKept (cwd d : Dir) (t : Tree) (L : Holdings) : Prop where
  master : ∃ docs, t.Holds (masterDir cwd) docs ∧
    ∀ e ∈ docs, Numbered e ∧ L.written e.1 = some e.2
  sandbox : ∃ docs, t.Holds d docs ∧ L.held = docs.map (fun e => (e.1, some e.2)) ∧
    ∀ e ∈ docs, Numbered e

variable {cwd d : Dir} {key : Key} {t t' : Tree} {L : Holdings} {c : SandboxCall}

theorem SandboxKept.viewsAgree (h : SandboxKept cwd (userDir cwd key.bytes) t L) :
    ViewsAgree cwd key t L.held := by
  obtain ⟨docs, hholds, hheld, hnum⟩ := h.sandbox
  have hfst : L.held.map Prod.fst = docs.map Prod.fst := by rw [hheld, List.map_map]; rfl
  have hviews : t.Views cwd key docs := by
    refine hholds.views fun e he => ?_
    obtain ⟨-, id, hid⟩ := hnum e he
    rw [hid]
    exact atoi_docName id
  constructor
  · exact atoi_docName
  · obtain ⟨a, -, hdocs⟩ := hholds
    rw [hfst]
    exact hdocs.nodup
  · intro e he
    rw [hheld] at he
    obtain ⟨e', he', rfl⟩ := List.mem_map.1 he
    exact ⟨e'.2, rfl, (hnum e' he').1⟩
  · intro order
    rw [hviews.count, hheld, List.length_map]
  · intro id
    rw [hviews.has, hfst]
  · intro id doc
    rw [hviews.read, hheld, List.mem_map]
    constructor
    · exact fun hmem => ⟨(id.toInt, doc), hmem, rfl⟩
    · rintro ⟨e, he, heq⟩
      obtain ⟨hid, hdoc⟩ := Prod.mk.inj heq
      rwa [← hid, ← Option.some.inj hdoc]
  · intro max order hmax
    have hitems : L.held.filterMap (fun e => e.2.map Tree.invenItem) =
        docs.map fun e => Tree.invenItem e.2 := by
      rw [hheld, List.filterMap_map]
      exact congrFun List.filterMap_eq_map' docs
    rw [hitems]
    exact hviews.list max order (by rwa [hheld, List.length_map] at hmax)
  · exact fun doc => Tree.invenItem_eq

/-! ### One call -/

theorem SandboxKept.masterWriteDoc {docId basePrice : Int32} {tags : Tags} {name : Bytes}
    (hne : d ≠ masterDir cwd) (h : SandboxKept cwd d t L)
    (hexec : (SandboxCall.masterWriteDoc docId tags basePrice name).exec cwd t = some t') :
    SandboxKept cwd d t' (L.record cwd d (.masterWriteDoc docId tags basePrice name, true)) := by
  obtain ⟨docs, hmaster, hwritten⟩ := h.master
  obtain ⟨held, hsandbox, hheld⟩ := h.sandbox
  simp only [SandboxCall.exec, Tree.masterWriteDoc, resolve_masterDocPath] at hexec
  have hmaster' := hmaster.create hexec
  have hsandbox' := hsandbox.create hexec
  rw [if_pos rfl] at hmaster'
  rw [if_neg hne] at hsandbox'
  refine ⟨⟨_, hmaster', ?_⟩, ⟨held, hsandbox', hheld⟩⟩
  intro e he
  rcases List.mem_cons.1 he with rfl | he
  · exact ⟨⟨rfl, docId, rfl⟩, Function.update_self _ _ _⟩
  · obtain ⟨hmem, hother⟩ := List.mem_filter.1 he
    obtain ⟨hnum, hlast⟩ := hwritten e hmem
    exact ⟨hnum, (Function.update_of_ne (of_decide_eq_true hother) _ _).trans hlast⟩

theorem SandboxKept.sandboxBuy {k : Key} {docId : Int32} (hne : d ≠ masterDir cwd)
    (h : SandboxKept cwd d t L)
    (hnot : userDir cwd k.bytes = d → docId.toInt ∉ L.held.map Prod.fst)
    (hexec : (SandboxCall.sandboxBuy k docId).exec cwd t = some t') :
    SandboxKept cwd d t' (L.record cwd d (.sandboxBuy k docId, true)) := by
  obtain ⟨docs, hmaster, hwritten⟩ := h.master
  obtain ⟨held, hsandbox, hheld, hnum⟩ := h.sandbox
  simp only [SandboxCall.exec, Tree.sandboxBuy, resolve_masterDocPath, resolve_userDocPath] at hexec
  split_ifs at hexec
  obtain ⟨doc, hread, hmaster'⟩ := hmaster.rename hexec
  obtain ⟨doc', hread', hsandbox'⟩ := hsandbox.rename hexec
  cases hread.symm.trans hread'
  -- what is bought has been written
  obtain ⟨hnew, hlast⟩ := hwritten _ (hmaster.read_iff.1 hread)
  rw [if_neg hne] at hsandbox'
  constructor
  · have hdocs : ∃ docs', t'.Holds (masterDir cwd) docs' ∧
        ∀ e ∈ docs', e = (docId.toInt, doc) ∨ e ∈ docs := by
      refine ⟨_, hmaster', fun e he => ?_⟩
      split_ifs at he
      · exact (List.mem_cons.1 he).imp_right fun he => (List.mem_filter.1 he).1
      · exact .inr (List.mem_filter.1 he).1
      · exact .inr he
    obtain ⟨docs', hholds, hold⟩ := hdocs
    refine ⟨docs', hholds, fun e he => ?_⟩
    have hsame : (L.record cwd d (.sandboxBuy k docId, true)).written = L.written := by
      simp only [Holdings.record]
      split_ifs <;> rfl
    rw [hsame]
    rcases hold e he with rfl | he
    · exact ⟨hnew, hlast⟩
    · exact hwritten e he
  · by_cases hd : userDir cwd k.bytes = d
    · have hfree : held.filter (fun e => e.1 ≠ docId.toInt) = held := by
        refine List.filter_eq_self.2 fun e he => decide_eq_true fun heq => hnot hd ?_
        rw [hheld, List.map_map, ← heq]
        exact List.mem_map_of_mem (f := fun e : ℤ × DocFile => e.1) he
      rw [if_pos hd.symm, hfree] at hsandbox'
      refine ⟨_, hsandbox', ?_, ?_⟩
      · simp only [Holdings.record, if_pos hd, hheld, hlast, List.map_cons]
      · intro e he
        rcases List.mem_cons.1 he with rfl | he
        · exact hnew
        · exact hnum e he
    · rw [if_neg (Ne.symm hd)] at hsandbox'
      refine ⟨held, hsandbox', ?_, hnum⟩
      simpa only [Holdings.record, if_neg hd] using hheld

/-- Documents that go leave the others as they are. -/
theorem SandboxKept.of_subset (h : SandboxKept cwd d t L) {L' : Holdings}
    (hsame : L'.written = L.written)
    (hmaster : ∀ docs, t.Holds (masterDir cwd) docs →
      ∃ docs' ⊆ docs, t'.Holds (masterDir cwd) docs')
    (hsandbox : ∀ docs, t.Holds d docs → L.held = docs.map (fun e => (e.1, some e.2)) →
      ∃ docs' ⊆ docs, t'.Holds d docs' ∧ L'.held = docs'.map fun e => (e.1, some e.2)) :
    SandboxKept cwd d t' L' := by
  obtain ⟨docs, hholds, hwritten⟩ := h.master
  obtain ⟨held, hkept, hheld, hnum⟩ := h.sandbox
  obtain ⟨docs', hsub, hholds'⟩ := hmaster docs hholds
  obtain ⟨held', hsub', hkept', hheld'⟩ := hsandbox held hkept hheld
  refine ⟨⟨docs', hholds', fun e he => ?_⟩, ⟨held', hkept', hheld', fun e he => hnum e (hsub' he)⟩⟩
  rw [hsame]
  exact hwritten e (hsub he)

theorem SandboxKept.sandboxDispose {k : Key} {docId : Int32} (h : SandboxKept cwd d t L)
    (hexec : (SandboxCall.sandboxDispose k docId).exec cwd t = some t') :
    SandboxKept cwd d t' (L.record cwd d (.sandboxDispose k docId, true)) := by
  simp only [SandboxCall.exec, Tree.sandboxDispose, resolve_userDocPath] at hexec
  have hsub : ∀ docs : List (ℤ × DocFile), docs.filter (fun e => e.1 ≠ docId.toInt) ⊆ docs :=
    fun docs => List.filter_subset_self docs
  refine h.of_subset ?_ ?_ ?_
  · simp only [Holdings.record]
    split_ifs <;> rfl
  · intro docs hdocs
    refine ⟨_, ?_, hdocs.unlink hexec⟩
    split_ifs
    · exact hsub docs
    · exact List.Subset.refl _
  · intro docs hdocs hheld
    refine ⟨_, ?_, hdocs.unlink hexec, ?_⟩
    · split_ifs
      · exact hsub docs
      · exact List.Subset.refl _
    · by_cases hd : userDir cwd k.bytes = d
      · simp only [Holdings.record, if_pos hd, if_pos hd.symm, hheld, List.filter_map]
        rfl
      · simp only [Holdings.record, if_neg hd, if_neg (Ne.symm hd), hheld]

theorem SandboxKept.sandboxPurgeUser {k : Key} {order : List Bytes} (h : SandboxKept cwd d t L)
    (hexec : (SandboxCall.sandboxPurgeUser k order).exec cwd t = some t') :
    SandboxKept cwd d t' (L.record cwd d (.sandboxPurgeUser k order, true)) := by
  simp only [SandboxCall.exec, Option.some.injEq] at hexec
  subst hexec
  refine h.of_subset ?_ ?_ ?_
  · simp only [Holdings.record]
    split_ifs <;> rfl
  · intro docs hdocs
    refine ⟨_, ?_, hdocs.purge k⟩
    split_ifs
    · exact List.nil_subset _
    · exact List.Subset.refl _
  · intro docs hdocs hheld
    refine ⟨_, ?_, hdocs.purge k, ?_⟩
    · split_ifs
      · exact List.nil_subset _
      · exact List.Subset.refl _
    · by_cases hd : userDir cwd k.bytes = d
      · simp only [Holdings.record, if_pos hd, if_pos hd.symm, List.map_nil]
      · simp only [Holdings.record, if_neg hd, if_neg (Ne.symm hd), hheld]

/-! ### Every sequence of calls -/

variable {t₀ : Tree} {hist : List (SandboxCall × Bool)} {p p' : Tree × List (SandboxCall × Bool)}
  {l : SandboxCall × Bool}

/-- **One call** keeps the documents as the history has them. -/
theorem kept_call (hne : d ≠ masterDir cwd) (h : SandboxKept cwd d p.1 (holdings cwd d p.2))
    (hguard : NotHeld cwd d p l)
    (hnext : ((sandboxCalls cwd).withHistory (callEvents cwd)).next p l = some p') :
    SandboxKept cwd d p'.1 (holdings cwd d p'.2) := by
  obtain ⟨hnext, hhist⟩ := System.withHistory_next.1 hnext
  obtain ⟨c, ok⟩ := l
  have ht : p'.1 = if ok then (c.exec cwd p.1).getD p.1 else p.1 := (Option.some.inj hnext).symm
  have hL : holdings cwd d p'.2 =
      (holdings cwd d p.2).record cwd d (c, ok && (c.exec cwd p.1).isSome) := by
    rw [hhist, holdings, List.foldl_append]
    rfl
  have hfail : ∀ L : Holdings, L.record cwd d (c, false) = L := by
    intro L
    cases c <;> rfl
  rw [ht, hL]
  cases ok with
  | false =>
    rw [Bool.false_and, hfail]
    exact h
  | true =>
    rcases hexec : c.exec cwd p.1 with _ | t'
    · rw [Option.isSome_none, Bool.and_false, hfail]
      exact h
    rw [if_pos rfl, Option.getD_some, Option.isSome_some, Bool.and_self]
    cases c with
    | masterWriteDoc docId tags basePrice name => exact h.masterWriteDoc hne hexec
    | sandboxBuy k docId =>
      refine h.sandboxBuy hne (fun hd => hguard hd ?_) hexec
      exact Option.isSome_iff_exists.2 ⟨t', hexec⟩
    | sandboxDispose k docId => exact h.sandboxDispose hexec
    | sandboxPurgeUser k order => exact h.sandboxPurgeUser hexec

/-- **The views agree after any sequence of calls** from directories without documents, as long as
no document is bought into the sandbox while one of its number is held there. -/
theorem viewsAgree_reach (hsandbox : t₀.Holds (userDir cwd key.bytes) [])
    (hmaster : t₀.Holds (masterDir cwd) []) (hne : userDir cwd key.bytes ≠ masterDir cwd)
    (h : ((sandboxCalls cwd).withHistory (callEvents cwd)).Reach
      (NotHeld cwd (userDir cwd key.bytes)) (t₀, []) (t, hist)) :
    ViewsAgree cwd key t (holdings cwd (userDir cwd key.bytes) hist).held := by
  have hkept : SandboxKept cwd (userDir cwd key.bytes) t
      (holdings cwd (userDir cwd key.bytes) hist) := by
    refine h.invariant (I := fun p => SandboxKept cwd (userDir cwd key.bytes) p.1
      (holdings cwd (userDir cwd key.bytes) p.2)) ?_ ?_
    · exact ⟨⟨[], hmaster, fun e he => absurd he List.not_mem_nil⟩,
        ⟨[], hsandbox, rfl, fun e he => absurd he List.not_mem_nil⟩⟩
    · exact fun p l p' _ hp hguard hnext => kept_call hne hp hguard hnext
  exact hkept.viewsAgree

/-- A key. -/
def aliceKey : Key := Key.ofBytes (utf8 "alice")

/-- The directory of the sandbox. -/
def aliceDir : Dir := userDir [] aliceKey.bytes

/-- An entry that is no document. -/
def notesDirectory : Directory := AList.singleton ⟨utf8 "notes", by decide +kernel⟩ .dir

/-- The directories after the start. -/
def freshTree : Tree where
  directory d :=
    if d = masterDir [] then some ∅ else if d = aliceDir then some notesDirectory else none

/-- Three documents are bought, one of them twice, and two are disposed of. -/
def signedCalls : List SandboxCall :=
  [.masterWriteDoc (-5) tagFinance 200 (utf8 "A"), .masterWriteDoc Int32.minValue 0 100 (utf8 "B"),
    .masterWriteDoc 7 tagMilitary 300 (utf8 "C"), .sandboxBuy aliceKey (-5),
    .sandboxBuy aliceKey Int32.minValue, .sandboxBuy aliceKey 7, .sandboxDispose aliceKey 7,
    .masterWriteDoc 7 tagMedical 400 (utf8 "D"), .sandboxBuy aliceKey 7,
    .sandboxDispose aliceKey (-5)]

theorem viewsAgree_alice : ∃ t hist,
    ((sandboxCalls []).withHistory (callEvents [])).Reach (NotHeld [] aliceDir) (freshTree, [])
      (t, hist) ∧
    (holdings [] aliceDir hist).held.map Prod.fst = [7, -2147483648] ∧
    ViewsAgree [] aliceKey t (holdings [] aliceDir hist).held := by
  have hne : aliceDir ≠ masterDir [] := by decide +kernel
  obtain ⟨⟨t, hist⟩, hreach, hheld⟩ :=
    ((sandboxCalls []).withHistory (callEvents [])).exists_reach_of_any (NotHeld [] aliceDir)
      (freshTree, []) (signedCalls.map fun c => (c, true))
      (fun p => (holdings [] aliceDir p.2).held.map Prod.fst == [7, -2147483648])
      (by decide +kernel)
  have hmaster : freshTree.Holds (masterDir []) [] := ⟨∅, if_pos rfl, rfl⟩
  have hsandbox : freshTree.Holds aliceDir [] :=
    ⟨notesDirectory, (if_neg hne).trans (if_pos rfl), by decide +kernel⟩
  exact ⟨t, hist, hreach, eq_of_beq hheld, viewsAgree_reach hsandbox hmaster hne hreach⟩

/-! ### The directories by number -/

variable {fs fs' : Files} {d' : Dir} {i : ℤ} {doc : DocFile}

/-- The loop of `purge_docs_in`, by number. -/
def Files.purge (fs : Files) (d : Dir) : Files :=
  ((fs.opendir d).getD []).foldl (fun fs i => (fs.unlink d i).2) fs

theorem Files.dirs_purge : (fs.purge d).dirs = fs.dirs := by
  rw [Files.purge]
  generalize (fs.opendir d).getD [] = ids
  induction ids generalizing fs with
  | nil => rfl
  | cons i ids ih => rw [List.foldl_cons, ih, Files.dirs_unlink]

theorem docs_unlink_loop (ids : List ℤ) :
    (ids.foldl (fun fs i => (fs.unlink d i).2) fs).docs d' =
      if d' = d then (fs.docs d').filter fun e => e.1 ∉ ids else fs.docs d' := by
  induction ids generalizing fs with
  | nil => simp
  | cons i ids ih =>
    rw [List.foldl_cons, ih, docs_unlink]
    split_ifs
    · rw [List.filter_filter]
      refine List.filter_congr fun e _ => ?_
      simp [not_or, Bool.and_comm]
    · rfl

theorem Files.docs_purge (h : fs.Housed) :
    (fs.purge d).docs d' = if d' = d then [] else fs.docs d' := by
  rw [Files.purge, docs_unlink_loop]
  split_ifs with hd
  · subst hd
    by_cases hdir : d' ∈ fs.dirs
    · rw [Files.opendir, if_pos hdir, Option.getD_some]
      exact List.filter_eq_nil_iff.2 fun e he => by simpa using ⟨e.2, he⟩
    · rw [h d' hdir]
      rfl
  · rfl

/-- **The directories by number are the directories by name**, as far as documents go. -/
structure Tree.Shows (t : Tree) (fs : Files) : Prop where
  housed : fs.Housed
  exists_iff : ∀ d, (t.directory d).isSome = true ↔ d ∈ fs.dirs
  holds : ∀ d ∈ fs.dirs, t.Holds d (fs.docs d)

/-- A document is found by its number where the numbers are distinct. -/
theorem find_eq_some_iff {docs : List (ℤ × DocFile)} (h : (docs.map Prod.fst).Nodup) :
    (docs.find? fun e => e.1 = i).map Prod.snd = some doc ↔ (i, doc) ∈ docs := by
  constructor
  · intro hfind
    obtain ⟨e, he, rfl⟩ := Option.map_eq_some_iff.1 hfind
    have hid : e.1 = i := by simpa using List.find?_some he
    exact hid ▸ List.mem_of_find?_eq_some he
  · intro hmem
    obtain ⟨e, he⟩ := Option.isSome_iff_exists.1
      (List.find?_isSome (p := fun e : ℤ × DocFile => e.1 = i).2 ⟨(i, doc), hmem, by simp⟩)
    have hid : e.1 = i := by simpa using List.find?_some he
    have heq : e = (i, doc) := List.inj_on_of_nodup_map h (List.mem_of_find?_eq_some he) hmem hid
    rw [he, heq]
    rfl

namespace Tree.Shows

theorem read (h : t.Shows fs) : t.read (d ++ [docName i]) = fs.get d i := by
  by_cases hd : d ∈ fs.dirs
  · ext doc
    have hholds := h.holds d hd
    obtain ⟨a, -, hdocs⟩ := id hholds
    rw [hholds.read_iff, Files.get, find_eq_some_iff hdocs.nodup]
  · have hnone : t.directory d = none := by
      rw [← Option.not_isSome_iff_eq_none, h.exists_iff]
      exact hd
    have hstat : t.stat (d ++ [docName i]) = none := by
      rw [show docName i = (docFile i).1 from rfl, stat_name, hnone]
      rfl
    rw [Tree.read, hstat, docs_eq_nil.1 (h.housed d hd)]

/-- A call that changes directories that exist leaves them there. -/
theorem of_frame (h : t.Shows fs) (hdirs : fs'.dirs = fs.dirs) (hhoused : fs'.Housed)
    (hsome : ∀ d, (t'.directory d).isSome = (t.directory d).isSome)
    (hholds : ∀ d ∈ fs.dirs, t.Holds d (fs.docs d) → t'.Holds d (fs'.docs d)) : t'.Shows fs' := by
  refine ⟨hhoused, fun d => ?_, fun d hd => ?_⟩
  · rw [hsome, hdirs]
    exact h.exists_iff d
  · rw [hdirs] at hd
    exact hholds d hd (h.holds d hd)

theorem isSome_set {b : Directory} (hb : (t.directory d).isSome = true) (d' : Dir) :
    ((t.set d b).directory d').isSome = (t.directory d').isSome := by
  by_cases hd : d' = d
  · rw [hd, directory_set_self, hb]
    rfl
  · rw [directory_set_ne hd]

theorem create (h : t.Shows fs) (i : ℤ) (doc : DocFile) :
    Option.Rel Tree.Shows (t.create (d ++ [docName i]) doc)
      (if d ∈ fs.dirs then some (fs.put d i doc) else none) := by
  split_ifs with hd
  · obtain ⟨t', ht'⟩ := Option.isSome_iff_exists.1 ((h.holds d hd).isSome_create i doc)
    rw [ht']
    obtain ⟨a, ha, -, hset⟩ := (create_eq_some (f := docFile i)).1 ht'
    refine .some (h.of_frame rfl (h.housed.put hd i doc) ?_ fun d' _ hdocs => ?_)
    · rw [hset]
      exact isSome_set (ha ▸ rfl)
    · rw [docs_put]
      convert hdocs.create ht' using 3
  · have hnone : t.create (d ++ [docName i]) doc = none := by
      rw [Option.eq_none_iff_forall_not_mem]
      intro t' ht'
      obtain ⟨a, ha, -⟩ := (create_eq_some (f := docFile i)).1 ht'
      exact hd ((h.exists_iff d).1 (ha ▸ rfl))
    rw [hnone]
    exact .none

theorem unlink (h : t.Shows fs) (i : ℤ) :
    Option.Rel Tree.Shows (t.unlink (d ++ [docName i]))
      (if (fs.get d i).isSome then some (fs.del d i) else none) := by
  rcases ht' : t.unlink (d ++ [docName i]) with _ | t'
  · rw [if_neg]
    · exact .none
    · rw [← h.read, Option.isSome_iff_exists]
      rintro ⟨doc, hread⟩
      have hd : d ∈ fs.dirs := by
        by_contra hd
        rw [h.read, docs_eq_nil.1 (h.housed d hd)] at hread
        cases hread
      have hmem := List.mem_map_of_mem (f := Prod.fst) ((h.holds d hd).read_iff.1 hread)
      have hsome := (h.holds d hd).isSome_unlink.2 hmem
      rw [ht'] at hsome
      cases hsome
  · obtain ⟨a, ha, ⟨doc, hdoc⟩, hset⟩ := (unlink_eq_some (f := docFile i)).1 ht'
    have hd : d ∈ fs.dirs := (h.exists_iff d).1 (ha ▸ rfl)
    have hread : t.read (d ++ [docName i]) = some doc := by
      rw [Tree.read, show docName i = (docFile i).1 from rfl, stat_name, ha, Option.bind_some, hdoc]
    rw [if_pos (by rw [← h.read, hread]; rfl)]
    refine .some (h.of_frame rfl (h.housed.del i) ?_ fun d' _ hdocs => ?_)
    · rw [hset]
      exact isSome_set (ha ▸ rfl)
    · rw [docs_del]
      exact hdocs.unlink ht'

theorem rename (h : t.Shows fs) (src dst : Dir) (i : ℤ) :
    Option.Rel Tree.Shows (t.rename (src ++ [docName i]) (dst ++ [docName i]))
      (fs.rename src dst i) := by
  rw [Tree.rename, Files.rename, h.read]
  rcases hget : fs.get src i with _ | doc
  · exact .none
  · have hunlink := h.unlink (d := src) i
    rw [hget, if_pos (Option.isSome_some)] at hunlink
    rw [Option.bind_some]
    generalize t.unlink (src ++ [docName i]) = r at hunlink
    cases hunlink with
    | some h₁ => exact h₁.create i doc

theorem purge (h : t.Shows fs) (key : Key) (order : List Bytes) :
    (t.sandboxPurgeUser cwd key order).Shows (fs.purge (userDir cwd key.bytes)) := by
  have hholds : ∀ d ∈ fs.dirs, (t.sandboxPurgeUser cwd key order).Holds d
      ((fs.purge (userDir cwd key.bytes)).docs d) := by
    intro d hd
    rw [Files.docs_purge h.housed]
    exact (h.holds d hd).purge key
  refine ⟨fun d hd => ?_, fun d => ?_, fun d hd => hholds d (Files.dirs_purge ▸ hd)⟩
  · rw [Files.dirs_purge] at hd
    rw [Files.docs_purge h.housed, h.housed d hd, ite_self]
  · rw [Files.dirs_purge]
    by_cases hd : d ∈ fs.dirs
    · obtain ⟨a, ha, -⟩ := hholds d hd
      exact iff_of_true (ha ▸ rfl) hd
    · rw [← h.exists_iff]
      by_cases hkey : d = userDir cwd key.bytes
      · have hnone := Option.not_isSome_iff_eq_none.1 (mt (h.exists_iff d).1 hd)
        rw [purge_of_none (hkey ▸ hnone)]
      · rw [directory_purge_ne hkey]

end Tree.Shows

/-- The documents a call leaves, by number. -/
def SandboxCall.execFiles (cwd : Dir) (fs : Files) : SandboxCall → Option Files
  | .masterWriteDoc docId tags basePrice name =>
    fs.write (masterDir cwd) ⟨docId.toInt, tags, basePrice.toInt, name⟩
  | .sandboxBuy key docId => fs.rename (masterDir cwd) (userDir cwd key.bytes) docId.toInt
  | .sandboxDispose key docId =>
    let p := fs.unlink (userDir cwd key.bytes) docId.toInt
    if p.1.isSome then some p.2 else none
  | .sandboxPurgeUser key _ => some (fs.purge (userDir cwd key.bytes))

/-- **Every call does the same to the documents by number.** -/
theorem Tree.Shows.exec (h : t.Shows fs) (c : SandboxCall) :
    Option.Rel Tree.Shows (c.exec cwd t) (c.execFiles cwd fs) := by
  cases c with
  | masterWriteDoc docId tags basePrice name =>
    simp only [SandboxCall.exec, Tree.masterWriteDoc, resolve_masterDocPath]
    exact h.create docId.toInt _
  | sandboxBuy key docId =>
    simp only [SandboxCall.exec, Tree.sandboxBuy, resolve_masterDocPath, resolve_userDocPath]
    split_ifs with hstat
    · exact h.rename _ _ _
    · have hnone : fs.get (masterDir cwd) docId.toInt = none := by
        rw [← h.read, Tree.read, Option.not_isSome_iff_eq_none.1 hstat]
      rw [SandboxCall.execFiles, Files.rename, hnone]
      exact .none
  | sandboxDispose key docId =>
    simp only [SandboxCall.exec, Tree.sandboxDispose, resolve_userDocPath]
    have hunlink := h.unlink (d := userDir cwd key.bytes) docId.toInt
    rw [SandboxCall.execFiles, Files.unlink]
    rcases hget : fs.get (userDir cwd key.bytes) docId.toInt with _ | doc
    · rwa [hget] at hunlink
    · rwa [hget] at hunlink
  | sandboxPurgeUser key order => exact .some (h.purge key order)

/-- What the four functions see of a sandbox is what is kept of it by number. -/
theorem Tree.Shows.views (h : t.Shows fs) (hd : userDir cwd key.bytes ∈ fs.dirs)
    (hnum : ∀ e ∈ fs.docs (userDir cwd key.bytes), Numbered e) :
    t.Views cwd key (fs.docs (userDir cwd key.bytes)) := by
  refine (h.holds _ hd).views fun e he => ?_
  obtain ⟨-, id, hid⟩ := hnum e he
  rw [hid]
  exact atoi_docName id

/-- The calls on the documents by number. -/
def filesCalls (cwd : Dir) : System Files (SandboxCall × Bool) where
  next fs l := some (if l.2 then (l.1.execFiles cwd fs).getD fs else fs)

theorem rel_getD {α β : Type*} {r : α → β → Prop} {x : Option α} {y : Option β} {a : α} {b : β}
    (h : Option.Rel r x y) (hab : r a b) : r (x.getD a) (y.getD b) := by
  cases h with
  | some hr => exact hr
  | none => exact hab

/-- **The calls by number simulate the calls by name.** -/
theorem Tree.Shows.reach {fs₀ : Files} (h₀ : t₀.Shows fs₀)
    (h : (sandboxCalls cwd).Reach System.anyStep t₀ t) :
    ∃ fs, t.Shows fs ∧ (filesCalls cwd).Reach System.anyStep fs₀ fs := by
  refine h.simulate (B := filesCalls cwd) (R := Tree.Shows) h₀ ?_
  intro t fs l t' hshows _ hnext
  obtain rfl := (Option.some.inj hnext).symm
  refine ⟨_, ?_, .inr ⟨l, rfl⟩⟩
  split_ifs
  · exact rel_getD (hshows.exec l.1) hshows
  · exact hshows

end UnderFlow
