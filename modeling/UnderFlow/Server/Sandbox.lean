import UnderFlow.Common.Protocol
import UnderFlow.Data.Path
import Mathlib.Data.Nat.Digits.Defs
import Mathlib.Logic.Function.Basic

/-!
# Sandboxes and document files

`src/server/sandbox.c`.  A document is a file `doc_<id>.dat`, in the master directory while it is
for sale and in the directory of its owner afterwards; a purchase renames the file.

Paths are the strings the code builds, resolved as POSIX resolves them from the directory `cwd`
the server works in.  `resolve_userDocPath` splits such a path into the directory and the number of
the document, so `Files` keeps documents by directory and number.
-/

namespace UnderFlow

/-! ### Paths -/

/-- A directory: the names on the way from the root. -/
abbrev Dir := List Bytes

instance : LawfulBEq Dir := inferInstance

instance : LawfulBEq (Dir × ℤ) := inferInstance

/-- The separator. -/
def slash : UInt8 := 47

/-- The character of `.` and `..`. -/
def dot : UInt8 := 46

/-- POSIX resolution of a path, for a process working in `cwd`. -/
def resolve (cwd : Dir) (path : Bytes) : Dir := Path.resolve slash dot cwd path

/-- `%d` of a natural number. -/
def decimalNat (n : ℕ) : Bytes :=
  if n = 0 then [48] else ((Nat.digits 10 n).reverse.map fun d => UInt8.ofNat (48 + d))

/-- `%d`. -/
def decimal (n : ℤ) : Bytes := if n < 0 then 45 :: decimalNat n.natAbs else decimalNat n.natAbs

/-- `MASTER_DIR`. -/
def masterDirPath : Bytes := utf8 "./data/master"

/-- `USERS_DIR`. -/
def usersDirPath : Bytes := utf8 "./data/users"

/-- The name of a document file. -/
def docName (docId : ℤ) : Bytes := utf8 "doc_" ++ decimal docId ++ utf8 ".dat"

/-- The path of the sandbox of a key. -/
def userDirPath (key : Bytes) : Bytes := usersDirPath ++ slash :: key

/-- The path of a document for sale. -/
def masterDocPath (docId : ℤ) : Bytes := masterDirPath ++ slash :: docName docId

/-- The path of a document in a sandbox. -/
def userDocPath (key : Bytes) (docId : ℤ) : Bytes :=
  usersDirPath ++ slash :: key ++ slash :: docName docId

/-- The directory of the documents for sale. -/
def masterDir (cwd : Dir) : Dir := resolve cwd masterDirPath

/-- The directory of the sandboxes. -/
def usersDir (cwd : Dir) : Dir := resolve cwd usersDirPath

/-- The sandbox of a key. -/
def userDir (cwd : Dir) (key : Bytes) : Dir := resolve cwd (userDirPath key)

/-- A key that is one plain component of a path. -/
def Key.Plain (k : Key) : Prop := Path.IsName slash dot k.bytes

instance (k : Key) : Decidable k.Plain := inferInstanceAs (Decidable (Path.IsName _ _ _))

theorem resolve_data {p c : Bytes} (cwd : Dir) (hp : p.head? ≠ some slash)
    (h : p.splitOn slash = [[dot], utf8 "data", c]) (hc : Path.IsName slash dot c) :
    resolve cwd p = cwd ++ [utf8 "data", c] := by
  have hd : Path.IsName slash dot (utf8 "data") := by decide +kernel
  rw [resolve, Path.resolve, if_neg hp, h]
  simp only [Path.walk_cons, Path.push_dot, Path.push_name hd, Path.push_name hc, Path.walk_nil,
    List.append_assoc, List.cons_append, List.nil_append]

theorem masterDir_eq (cwd : Dir) : masterDir cwd = cwd ++ [utf8 "data", utf8 "master"] :=
  resolve_data cwd (by decide +kernel) (by decide +kernel) (by decide +kernel)

theorem usersDir_eq (cwd : Dir) : usersDir cwd = cwd ++ [utf8 "data", utf8 "users"] :=
  resolve_data cwd (by decide +kernel) (by decide +kernel) (by decide +kernel)

theorem userDir_eq_walk (cwd : Dir) (key : Bytes) :
    userDir cwd key = Path.walk dot (usersDir cwd) (key.splitOn slash) :=
  Path.resolve_append_sep (by decide +kernel)

/-- The directory of a plain key is an entry of `USERS_DIR`. -/
theorem userDir_plain {k : Key} (cwd : Dir) (h : k.Plain) :
    userDir cwd k.bytes = usersDir cwd ++ [k.bytes] := by
  rw [userDir_eq_walk, Path.walk_splitOn_name h]

theorem userDir_inj {k₁ k₂ : Key} {cwd : Dir} (h₁ : k₁.Plain) (h₂ : k₂.Plain)
    (h : userDir cwd k₁.bytes = userDir cwd k₂.bytes) : k₁ = k₂ := by
  rw [userDir_plain cwd h₁, userDir_plain cwd h₂] at h
  exact Key.ext (by simpa using h)

theorem userDir_ne_masterDir {k : Key} {cwd : Dir} (h : k.Plain) :
    userDir cwd k.bytes ≠ masterDir cwd := by
  rw [userDir_plain cwd h, usersDir_eq, masterDir_eq]
  intro he
  simpa using congrArg List.length he

/-! ### Names of documents -/

theorem decimalNat_digit {n : ℕ} {b : UInt8} (h : b ∈ decimalNat n) :
    48 ≤ b.toNat ∧ b.toNat < 58 := by
  unfold decimalNat at h
  split_ifs at h with hn
  · rw [List.mem_singleton.1 h]
    decide
  · obtain ⟨d, hd, rfl⟩ := List.mem_map.1 h
    have hlt : d < 10 := Nat.digits_lt_base (by decide) (List.mem_reverse.1 hd)
    rw [UInt8.toNat_ofNat']
    omega

theorem decimalNat_injective : Function.Injective decimalNat := by
  have hdig : ∀ m : ℕ, m ≠ 0 → (decimalNat m).map (fun b => b.toNat - 48) =
      (Nat.digits 10 m).reverse := by
    intro m hm
    rw [decimalNat, if_neg hm, List.map_map]
    refine (List.map_congr_left fun d hd => ?_).trans (List.map_id _)
    have hlt : d < 10 := Nat.digits_lt_base (by decide) (List.mem_reverse.1 hd)
    simp only [Function.comp_apply, UInt8.toNat_ofNat', id_eq]
    omega
  have hzero : ∀ m : ℕ, decimalNat m = [48] → m = 0 := by
    intro m h
    by_contra hm
    have h' := hdig m hm
    rw [h] at h'
    have h'' := Nat.ofDigits_digits 10 m
    rw [← List.reverse_reverse (Nat.digits 10 m), ← h'] at h''
    exact hm (by simpa [Nat.ofDigits] using h''.symm)
  intro m n h
  by_cases hm : m = 0
  · subst hm
    exact (hzero n (h ▸ rfl)).symm
  by_cases hn : n = 0
  · subst hn
    exact hzero m (h ▸ rfl)
  have h' := congrArg (List.map fun b => b.toNat - 48) h
  rw [hdig m hm, hdig n hn] at h'
  exact Nat.digits.injective 10 (List.reverse_injective h')

theorem decimal_injective : Function.Injective decimal := by
  intro m n h
  have hno : ∀ {k j : ℕ}, (45 : UInt8) :: decimalNat k ≠ decimalNat j := by
    intro k j h
    have := decimalNat_digit (n := j) (b := 45) (h ▸ List.mem_cons_self)
    revert this
    decide
  unfold decimal at h
  split_ifs at h with hm hn hn
  · have := decimalNat_injective (List.cons.inj h).2
    omega
  · exact absurd h hno
  · exact absurd h.symm hno
  · have := decimalNat_injective h
    omega

theorem docName_injective : Function.Injective docName := by
  intro m n h
  simp only [docName, List.append_assoc, List.append_cancel_left_eq, List.append_cancel_right_eq]
    at h
  exact decimal_injective h

theorem docName_isName (d : ℤ) : Path.IsName slash dot (docName d) := by
  have hlen : 4 ≤ (docName d).length := by
    have : (utf8 "doc_").length = 4 := by decide +kernel
    simp only [docName, List.length_append]
    omega
  have hsep : slash ∉ decimal d := by
    have hnat : ∀ n, slash ∉ decimalNat n := fun n h => absurd (decimalNat_digit h) (by decide)
    unfold decimal
    split_ifs
    · simpa [slash] using hnat d.natAbs
    · exact hnat _
  have h₁ : slash ∉ utf8 "doc_" := by decide +kernel
  have h₂ : slash ∉ utf8 ".dat" := by decide +kernel
  refine ⟨?_, ?_, ?_, ?_⟩
  · intro h; simp [h] at hlen
  · intro h; simp [h] at hlen
  · intro h; simp [h] at hlen
  · simp [docName, hsep, h₁, h₂]

/-- A document path of a user names the document in the directory of the user. -/
theorem resolve_userDocPath (cwd : Dir) (key : Bytes) (d : ℤ) :
    resolve cwd (userDocPath key d) = userDir cwd key ++ [docName d] :=
  Path.resolve_append_name (by simp) (docName_isName d)

theorem resolve_masterDocPath (cwd : Dir) (d : ℤ) :
    resolve cwd (masterDocPath d) = masterDir cwd ++ [docName d] :=
  Path.resolve_append_name (by decide +kernel) (docName_isName d)

/-! ### Files -/

/-- The existing directories, and the documents in each of them by number. -/
structure Files where
  /-- The directories there are. -/
  dirs : List Dir
  /-- The documents of a directory, by number. -/
  docs : Dir → List (ℤ × DocFile)

namespace Files

variable (fs : Files)

/-- The document with the given number in a directory. -/
def get (d : Dir) (docId : ℤ) : Option DocFile :=
  ((fs.docs d).find? fun e => e.1 = docId).map Prod.snd

/-- Create or replace a document. -/
def put (d : Dir) (docId : ℤ) (doc : DocFile) : Files where
  dirs := fs.dirs
  docs := Function.update fs.docs d ((docId, doc) :: (fs.docs d).filter fun e => e.1 ≠ docId)

/-- Remove a document. -/
def del (d : Dir) (docId : ℤ) : Files where
  dirs := fs.dirs
  docs := Function.update fs.docs d ((fs.docs d).filter fun e => e.1 ≠ docId)

/-- `mkdir`, where an existing directory is no error. -/
def mkdir (d : Dir) : Option Files :=
  if d ∈ fs.dirs then some fs
  else if d.dropLast ∈ fs.dirs then some ⟨d :: fs.dirs, Function.update fs.docs d []⟩
  else none

/-- The numbers of the documents in a directory, or `none` if there is no such directory. -/
def opendir (d : Dir) : Option (List ℤ) :=
  if d ∈ fs.dirs then some ((fs.docs d).map Prod.fst) else none

/-- `unlink`: the file removed, if there was one. -/
def unlink (d : Dir) (docId : ℤ) : Option DocFile × Files :=
  match fs.get d docId with
  | none => (none, fs)
  | some doc => (some doc, fs.del d docId)

/-- `rename` of a document to another directory. -/
def rename (src dst : Dir) (docId : ℤ) : Option Files :=
  match fs.get src docId with
  | none => none
  | some doc => if dst ∈ fs.dirs then some ((fs.del src docId).put dst docId doc) else none

/-- `open` with `O_CREAT | O_TRUNC`, and `write`. -/
def write (d : Dir) (doc : DocFile) : Option Files :=
  if d ∈ fs.dirs then some (fs.put d doc.docId doc) else none

/-- The names in `USERS_DIR`. -/
def userEntries (cwd : Dir) : List Bytes :=
  fs.dirs.filterMap fun d => if d.dropLast = usersDir cwd then d.getLast? else none

variable {fs} {d d' : Dir} {i i' : ℤ} {doc : DocFile}

@[simp] theorem dirs_put : (fs.put d i doc).dirs = fs.dirs := rfl

@[simp] theorem dirs_del : (fs.del d i).dirs = fs.dirs := rfl

theorem get_put :
    (fs.put d i doc).get d' i' = if d' = d ∧ i' = i then some doc else fs.get d' i' := by
  by_cases hd : d' = d
  · subst hd
    by_cases hi : i' = i
    · simp [get, put, hi]
    · simp only [get, put, Function.update_self, List.find?_cons, Ne.symm hi, decide_false,
        List.find?_filter, hi, and_false, ↓reduceIte]
      congr 2
      funext e
      by_cases he : e.1 = i'
      · simp [he, hi]
      · simp [he]
  · simp [get, put, hd]

theorem get_del : (fs.del d i).get d' i' = if d' = d ∧ i' = i then none else fs.get d' i' := by
  by_cases hd : d' = d
  · subst hd
    simp only [get, del, Function.update_self, List.find?_filter, true_and]
    by_cases hi : i' = i
    · simp [hi]
    · simp only [hi, ↓reduceIte]
      congr 2
      funext e
      by_cases he : e.1 = i'
      · simp [he, hi]
      · simp [he]
  · simp [get, del, hd]

theorem get_unlink :
    (fs.unlink d i).2.get d' i' = if d' = d ∧ i' = i then none else fs.get d' i' := by
  unfold unlink
  split
  · rename_i h
    split_ifs with hc
    · rw [hc.1, hc.2, h]
    · rfl
  · exact get_del

theorem dirs_unlink : (fs.unlink d i).2.dirs = fs.dirs := by
  unfold unlink; split <;> rfl

theorem unlink_fst : (fs.unlink d i).1 = fs.get d i := by
  unfold unlink; split <;> simp [*]

theorem rename_eq_some {fs' : Files} : fs.rename d d' i = some fs' ↔
    ∃ doc, fs.get d i = some doc ∧ d' ∈ fs.dirs ∧ fs' = (fs.del d i).put d' i doc := by
  unfold rename
  cases h : fs.get d i with
  | none => simp
  | some doc =>
    by_cases hd : d' ∈ fs.dirs
    · simp [hd, eq_comm]
    · simp [hd]

theorem mem_opendir {ids : List ℤ} (h : fs.opendir d = some ids) :
    i ∈ ids ↔ (fs.get d i).isSome = true := by
  unfold opendir at h
  split_ifs at h
  cases h
  simp only [get, Option.isSome_map, List.find?_isSome, decide_eq_true_eq, List.mem_map]

end Files

end UnderFlow
