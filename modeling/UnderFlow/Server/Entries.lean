import UnderFlow.Server.Sandbox
import UnderFlow.Data.Numeral
import Mathlib.Data.List.AList

/-!
# Sandboxes by the names of their files

`src/server/sandbox.c` once more, on directories as the system keeps them: by name.  `sandbox_count`
looks at the first letters of a name, `sandbox_has` and `sandbox_read_doc` print a name and look it
up, and `sandbox_list` reads the number out of a name and prints it again.

* `atoi_docName` : the number read from the name of a document is the one printed into it.
* `Directory.Holds` : the entries of a directory that count as documents are the given documents.
* `Tree.Holds.create`, `Tree.Holds.unlink`, `Tree.Holds.rename`, `Tree.Holds.purge` : what the
  calls do to them.
* `Tree.Holds.views` : what the four functions see of a directory that holds some documents.
-/

namespace UnderFlow

/-! ### Names -/

/-- A name that can stand in a directory. -/
abbrev FileName := {name : Bytes // Path.IsName slash dot name}

/-- The name of a document file. -/
def docFile (docId : ℤ) : FileName := ⟨docName docId, docName_isName docId⟩

/-- `strncmp(name, "doc_", 4) == 0` -/
def isDocName (name : Bytes) : Bool := name.take 4 = utf8 "doc_"

variable {i j : ℤ} {n : ℕ}

theorem docFile_injective : Function.Injective docFile := fun _ _ h =>
  docName_injective (Subtype.ext_iff.1 h)

theorem docName_take_drop (i : ℤ) :
    (docName i).take 4 = utf8 "doc_" ∧ (docName i).drop 4 = decimal i ++ utf8 ".dat" := by
  have hlen : (utf8 "doc_").length = 4 := by decide +kernel
  rw [docName, List.append_assoc]
  exact ⟨List.take_left' hlen, List.drop_left' hlen⟩

@[simp] theorem isDocName_docFile : isDocName (docFile i).1 = true :=
  decide_eq_true (docName_take_drop i).1

theorem isDocName_dot : isDocName [dot] = false ∧ isDocName [dot, dot] = false := by decide +kernel

/-- What `%d` prints is a numeral. -/
theorem decimalNat_numeral (n : ℕ) : ∃ ds : List ℕ, ds ≠ [] ∧ (∀ d ∈ ds, d < 10) ∧
    decimalNat n = ds.map digitByte ∧ Nat.ofDigits 10 ds.reverse = n := by
  by_cases hn : n = 0
  · refine ⟨[0], List.cons_ne_nil _ _, ?_, ?_, ?_⟩
    · intro d hd
      rw [List.mem_singleton.1 hd]
      decide
    · rw [hn]
      rfl
    · rw [hn]
      rfl
  · refine ⟨(Nat.digits 10 n).reverse, ?_, ?_, ?_, ?_⟩
    · rwa [Ne, List.reverse_eq_nil_iff, Nat.digits_eq_nil_iff_eq_zero]
    · intro d hd
      exact Nat.digits_lt_base (by decide) (List.mem_reverse.1 hd)
    · rw [decimalNat, if_neg hn]
      rfl
    · rw [List.reverse_reverse, Nat.ofDigits_digits]

/-- **`atoi` reads what `%d` prints**, for every 32-bit number. -/
theorem atoi_docName (id : Int32) : atoi ((docName id.toInt).drop 4) = id.toInt := by
  have hlo := id.le_toInt
  have hhi := id.toInt_lt
  have hrest : ∀ b ∈ (utf8 ".dat").head?, isDigit b = false := by decide +kernel
  obtain ⟨ds, hne, hds, hprint, hvalue⟩ := decimalNat_numeral id.toInt.natAbs
  rw [(docName_take_drop _).2, decimal]
  split_ifs with hneg
  · rw [hprint, List.cons_append, atoi_neg hds hrest (by omega), hvalue]
    omega
  · rw [hprint, atoi_digits hds hne hrest (by omega), hvalue]
    omega

/-! ### Directories -/

/-- An entry of a directory. -/
inductive Node where
  | file (doc : DocFile)
  | dir
  deriving DecidableEq

/-- The entries of a directory, by name. -/
abbrev Directory := AList fun _ : FileName => Node

/-- The directories there are. -/
structure Tree where
  /-- The directory at a path, if there is one. -/
  directory : Dir → Option Directory

namespace Tree

variable (t : Tree) (cwd : Dir) (key : Key)

/-- The directory a resolved path leads through, and the name it ends in. -/
def split (p : Dir) : Option (Dir × FileName) :=
  p.getLast?.bind fun name =>
    if h : Path.IsName slash dot name then some (p.dropLast, ⟨name, h⟩) else none

/-- A directory of the tree is replaced. -/
def set (d : Dir) (a : Directory) : Tree := ⟨Function.update t.directory d (some a)⟩

/-- `stat` -/
def stat (p : Dir) : Option Node :=
  (split p).bind fun (d, name) => (t.directory d).bind fun a => a.lookup name

/-- `open` with `O_RDONLY`, and `read`. -/
def read (p : Dir) : Option DocFile :=
  match t.stat p with
  | some (.file doc) => some doc
  | _ => none

/-- `open` with `O_CREAT | O_TRUNC`, and `write`. -/
def create (p : Dir) (doc : DocFile) : Option Tree :=
  (split p).bind fun (d, name) => (t.directory d).bind fun a =>
    if a.lookup name = some .dir then none else some (t.set d (a.insert name (.file doc)))

/-- `unlink` -/
def unlink (p : Dir) : Option Tree :=
  (split p).bind fun (d, name) => (t.directory d).bind fun a =>
    match a.lookup name with
    | some (.file _) => some (t.set d (a.erase name))
    | _ => none

/-- `rename` of a file. -/
def rename (src dst : Dir) : Option Tree :=
  (t.read src).bind fun doc => (t.unlink src).bind fun t' => t'.create dst doc

/-- `opendir`, and what `readdir` returns until the end, in some order. -/
def opendir (d : Dir) (order : List Bytes) : Option (List Bytes) :=
  (t.directory d).map fun a =>
    let names := [dot] :: [dot, dot] :: a.keys.map Subtype.val
    if order.isPerm names then order else names

/-! ### The functions of `sandbox.c` -/

/-- `sandbox_count`: the entries named like documents. -/
def sandboxCount (order : List Bytes) : Option ℕ :=
  (t.opendir (resolve cwd (userDirPath key.bytes)) order).map
    (List.countP fun name => name ≠ [dot] ∧ name ≠ [dot, dot] ∧ isDocName name = true)

/-- `sandbox_has`: the file can be looked up. -/
def sandboxHas (docId : ℤ) : Bool := (t.stat (resolve cwd (userDocPath key.bytes docId))).isSome

/-- `sandbox_buy`: the file is moved out of the master directory. -/
def sandboxBuy (docId : ℤ) : Option Tree :=
  if (t.stat (resolve cwd (masterDocPath docId))).isSome then
    t.rename (resolve cwd (masterDocPath docId)) (resolve cwd (userDocPath key.bytes docId))
  else none

/-- `sandbox_dispose`: the file is deleted. -/
def sandboxDispose (docId : ℤ) : Option Tree :=
  t.unlink (resolve cwd (userDocPath key.bytes docId))

/-- `sandbox_read_doc`: the content of the file. -/
def sandboxReadDoc (docId : ℤ) : Option DocFile :=
  t.read (resolve cwd (userDocPath key.bytes docId))

/-- The item `sandbox_list` makes of a document. -/
def invenItem (df : DocFile) : InvenItem := ⟨df.docId, df.tags, cstr maxNameLen df.name, false⟩

/-- The loop of `sandbox_list`, with the items found so far. -/
def sandboxListLoop (max : ℤ) : List Bytes → List InvenItem → List InvenItem
  | [], out => out
  | name :: names, out =>
    if (out.length : ℤ) < max then
      if name = [dot] ∨ name = [dot, dot] then sandboxListLoop max names out
      else if isDocName name = false then sandboxListLoop max names out
      else
        match t.sandboxReadDoc cwd key (atoi (name.drop 4)) with
        | some df => sandboxListLoop max names (out ++ [invenItem df])
        | none => sandboxListLoop max names out
    else out

/-- `sandbox_list`: the documents of the directory, up to a number. -/
def sandboxList (max : ℤ) (order : List Bytes) : List InvenItem :=
  match t.opendir (resolve cwd (userDirPath key.bytes)) order with
  | none => []
  | some names => t.sandboxListLoop cwd key max names []

/-- `master_write_doc`: the file of a document is created. -/
def masterWriteDoc (doc : DocFile) : Option Tree :=
  t.create (resolve cwd (masterDocPath doc.docId)) doc

/-- The loop body of `purge_docs_in`. -/
def purgeName (dirPath name : Bytes) : Tree :=
  if isDocName name then (t.unlink (resolve cwd (dirPath ++ slash :: name))).getD t else t

/-- `purge_docs_in`: every document of the directory is deleted. -/
def purgeDocsIn (dirPath : Bytes) (order : List Bytes) : Tree :=
  match t.opendir (resolve cwd dirPath) order with
  | none => t
  | some names => names.foldl (fun t name => t.purgeName cwd dirPath name) t

/-- `sandbox_purge_user`. -/
def sandboxPurgeUser (order : List Bytes) : Tree := t.purgeDocsIn cwd (userDirPath key.bytes) order

end Tree

/-! ### The documents of a directory -/

/-- A document as an entry. -/
def docEntry (e : ℤ × DocFile) : Sigma fun _ : FileName => Node := ⟨docFile e.1, .file e.2⟩

/-- **The entries of a directory that count as documents** are the given documents; it may hold
anything else under names that do not begin with `doc_`. -/
def Directory.Holds (a : Directory) (docs : List (ℤ × DocFile)) : Prop :=
  a.entries.filter (fun e => isDocName e.1.1) = docs.map docEntry

instance (a : Directory) (docs : List (ℤ × DocFile)) : Decidable (a.Holds docs) :=
  inferInstanceAs (Decidable (_ = _))

/-- Removing a key from a table with distinct keys. -/
theorem kerase_eq_filter {α : Type*} {β : α → Type*} [DecidableEq α] {l : List (Sigma β)} (a : α)
    (h : l.NodupKeys) : l.kerase a = l.filter fun e => e.1 ≠ a := by
  induction l with
  | nil => rfl
  | cons e l ih =>
    rw [List.nodupKeys_cons] at h
    by_cases he : a = e.1
    · subst he
      have hne : ∀ e' ∈ l, e'.1 ≠ e.1 := by
        intro e' he' heq
        exact h.1 (heq ▸ List.mem_map_of_mem he')
      rw [List.kerase_cons_eq rfl, List.filter_cons_of_neg (by simp),
        List.filter_eq_self.2 fun e' he' => decide_eq_true (hne e' he')]
    · rw [List.kerase_cons_ne he, List.filter_cons_of_pos (by simpa using Ne.symm he), ih h.2]

namespace Directory.Holds

variable {a : Directory} {docs : List (ℤ × DocFile)} {doc : DocFile} {node : Node} {f : FileName}

theorem mem_iff (h : a.Holds docs) (hf : isDocName f.1 = true) :
    a.lookup f = some node ↔ (⟨f, node⟩ : Sigma fun _ : FileName => Node) ∈ docs.map docEntry := by
  rw [← h, List.mem_filter, ← Option.mem_def, AList.mem_lookup_iff]
  exact (and_iff_left hf).symm

/-- What is found under the name of a document. -/
theorem lookup_docFile (h : a.Holds docs) :
    a.lookup (docFile i) = some node ↔ ∃ doc, node = .file doc ∧ (i, doc) ∈ docs := by
  rw [h.mem_iff isDocName_docFile, List.mem_map]
  constructor
  · rintro ⟨⟨j, doc⟩, hmem, heq⟩
    obtain ⟨hfile, hnode⟩ := Sigma.mk.inj heq
    cases docFile_injective hfile
    exact ⟨doc, (eq_of_heq hnode).symm, hmem⟩
  · rintro ⟨doc, rfl, hmem⟩
    exact ⟨(i, doc), hmem, rfl⟩

/-- The numbers of the documents are distinct. -/
theorem nodup (h : a.Holds docs) : (docs.map Prod.fst).Nodup := by
  have hkeys : ((docs.map docEntry).map Sigma.fst).Nodup := by
    rw [← h]
    exact a.nodupKeys.sublist List.filter_sublist
  rw [List.map_map] at hkeys
  exact .of_map docFile (by rwa [List.map_map])

/-- Removing a document. -/
theorem filter_ne (docs : List (ℤ × DocFile)) (i : ℤ) :
    (docs.map docEntry).filter (fun e => e.1 ≠ docFile i) =
      (docs.filter fun e => e.1 ≠ i).map docEntry := by
  rw [List.filter_map]
  congr 1
  refine List.filter_congr fun e _ => ?_
  exact decide_eq_decide.2 docFile_injective.ne_iff

theorem erase (h : a.Holds docs) (i : ℤ) :
    Directory.Holds (a.erase (docFile i)) (docs.filter fun e => e.1 ≠ i) := by
  rw [Directory.Holds, ← filter_ne, ← h, List.filter_filter]
  change (a.entries.kerase (docFile i)).filter _ = _
  rw [kerase_eq_filter _ a.nodupKeys, List.filter_filter]
  exact List.filter_congr fun e _ => Bool.and_comm _ _

theorem insert (h : a.Holds docs) (i : ℤ) (doc : DocFile) :
    Directory.Holds (a.insert (docFile i) (.file doc))
      ((i, doc) :: docs.filter fun e => e.1 ≠ i) := by
  have herase := h.erase i
  rw [Directory.Holds, AList.entries_insert, List.filter_cons_of_pos (by simp)]
  exact congrArg (_ :: ·) herase

end Directory.Holds

namespace Tree

/-- The documents of a directory that exists. -/
def Holds (t : Tree) (d : Dir) (docs : List (ℤ × DocFile)) : Prop :=
  ∃ a, t.directory d = some a ∧ a.Holds docs

variable {t t' : Tree} {cwd d d' : Dir} {key : Key} {docs : List (ℤ × DocFile)} {doc : DocFile}
  {node : Node} {a : Directory} {f : FileName} {order : List Bytes}

@[simp] theorem directory_set_self : (t.set d a).directory d = some a :=
  Function.update_self _ _ _

theorem directory_set_ne (h : d' ≠ d) : (t.set d a).directory d' = t.directory d' :=
  Function.update_of_ne h _ _

theorem split_name : split (d ++ [f.1]) = some (d, f) := by
  rw [split, List.getLast?_concat, Option.bind_some, dif_pos f.2, List.dropLast_concat]

theorem stat_name : t.stat (d ++ [f.1]) = (t.directory d).bind fun a => a.lookup f := by
  rw [stat, split_name]
  rfl

theorem create_eq_some : t.create (d ++ [f.1]) doc = some t' ↔ ∃ a, t.directory d = some a ∧
    a.lookup f ≠ some .dir ∧ t' = t.set d (a.insert f (.file doc)) := by
  rw [create, split_name, Option.bind_some, Option.bind_eq_some_iff]
  refine exists_congr fun a => and_congr_right fun _ => ?_
  split_ifs with hdir
  · simp [hdir]
  · simp [hdir, eq_comm]

theorem unlink_eq_some : t.unlink (d ++ [f.1]) = some t' ↔ ∃ a, t.directory d = some a ∧
    (∃ doc, a.lookup f = some (.file doc)) ∧ t' = t.set d (a.erase f) := by
  rw [unlink, split_name, Option.bind_some, Option.bind_eq_some_iff]
  refine exists_congr fun a => and_congr_right fun _ => ?_
  split
  · rename_i doc hfile
    simp [hfile, eq_comm]
  · rename_i hno
    simpa using fun doc hdoc _ => hno doc hdoc

/-! ### What the calls do to the documents -/

namespace Holds

theorem set_ne (h : t.Holds d' docs) (hne : d' ≠ d) : (t.set d a).Holds d' docs := by
  obtain ⟨b, hb, hdocs⟩ := h
  exact ⟨b, by rw [directory_set_ne hne, hb], hdocs⟩

theorem set_self (h : a.Holds docs) : (t.set d a).Holds d docs := ⟨a, directory_set_self, h⟩

/-- What `stat` finds under the name of a document. -/
theorem stat_iff (h : t.Holds d docs) :
    t.stat (d ++ [docName i]) = some node ↔ ∃ doc, node = .file doc ∧ (i, doc) ∈ docs := by
  obtain ⟨a, ha, hdocs⟩ := h
  have hstat : t.stat (d ++ [docName i]) = a.lookup (docFile i) := by
    rw [show docName i = (docFile i).1 from rfl, stat_name, ha]
    rfl
  rw [hstat, hdocs.lookup_docFile]

theorem isSome_stat (h : t.Holds d docs) :
    (t.stat (d ++ [docName i])).isSome = true ↔ i ∈ docs.map Prod.fst := by
  rw [Option.isSome_iff_exists, List.mem_map]
  constructor
  · rintro ⟨node, hnode⟩
    obtain ⟨doc, -, hmem⟩ := h.stat_iff.1 hnode
    exact ⟨(i, doc), hmem, rfl⟩
  · rintro ⟨⟨j, doc⟩, hmem, rfl⟩
    exact ⟨.file doc, h.stat_iff.2 ⟨doc, rfl, hmem⟩⟩

theorem read_iff (h : t.Holds d docs) :
    t.read (d ++ [docName i]) = some doc ↔ (i, doc) ∈ docs := by
  have hstat : t.read (d ++ [docName i]) = some doc ↔
      t.stat (d ++ [docName i]) = some (.file doc) := by
    unfold read
    split
    · rename_i doc' hfile
      rw [hfile]
      simp
    · rename_i hno
      simpa using hno doc
  rw [hstat, h.stat_iff]
  constructor
  · rintro ⟨doc', heq, hmem⟩
    cases heq
    exact hmem
  · exact fun hmem => ⟨doc, rfl, hmem⟩

/-- A new document, in place of one of its number. -/
theorem create (h : t.Holds d' docs) (hc : t.create (d ++ [docName i]) doc = some t') :
    t'.Holds d' (if d' = d then (i, doc) :: docs.filter fun e => e.1 ≠ i else docs) := by
  obtain ⟨a, ha, -, rfl⟩ := (create_eq_some (f := docFile i)).1 hc
  split_ifs with hd
  · subst hd
    obtain ⟨b, hb, hdocs⟩ := h
    cases ha.symm.trans hb
    exact set_self (hdocs.insert i doc)
  · exact h.set_ne hd

theorem isSome_create (h : t.Holds d docs) (i : ℤ) (doc : DocFile) :
    (t.create (d ++ [docName i]) doc).isSome = true := by
  obtain ⟨a, ha, hdocs⟩ := h
  refine Option.isSome_iff_exists.2 ⟨_, (create_eq_some (f := docFile i)).2 ⟨a, ha, ?_, rfl⟩⟩
  intro hdir
  obtain ⟨doc', hfile, -⟩ := hdocs.lookup_docFile.1 hdir
  cases hfile

/-- A document less. -/
theorem unlink (h : t.Holds d' docs) (hu : t.unlink (d ++ [docName i]) = some t') :
    t'.Holds d' (if d' = d then docs.filter fun e => e.1 ≠ i else docs) := by
  obtain ⟨a, ha, -, rfl⟩ := (unlink_eq_some (f := docFile i)).1 hu
  split_ifs with hd
  · subst hd
    obtain ⟨b, hb, hdocs⟩ := h
    cases ha.symm.trans hb
    exact set_self (hdocs.erase i)
  · exact h.set_ne hd

theorem isSome_unlink (h : t.Holds d docs) :
    (t.unlink (d ++ [docName i])).isSome = true ↔ i ∈ docs.map Prod.fst := by
  obtain ⟨a, ha, hdocs⟩ := h
  rw [Option.isSome_iff_exists, List.mem_map]
  constructor
  · rintro ⟨t', ht'⟩
    obtain ⟨b, hb, ⟨doc, hdoc⟩, -⟩ := (unlink_eq_some (f := docFile i)).1 ht'
    cases ha.symm.trans hb
    obtain ⟨doc', -, hmem⟩ := hdocs.lookup_docFile.1 hdoc
    exact ⟨(i, doc'), hmem, rfl⟩
  · rintro ⟨⟨j, doc⟩, hmem, rfl⟩
    exact ⟨_, (unlink_eq_some (f := docFile j)).2
      ⟨a, ha, ⟨doc, hdocs.lookup_docFile.2 ⟨doc, rfl, hmem⟩⟩, rfl⟩⟩

/-- A document that moves, possibly to where it is. -/
theorem rename {src dst : Dir} (h : t.Holds d docs)
    (hr : t.rename (src ++ [docName i]) (dst ++ [docName i]) = some t') :
    ∃ doc, t.read (src ++ [docName i]) = some doc ∧ t'.Holds d
      (if d = dst then (i, doc) :: docs.filter fun e => e.1 ≠ i
       else if d = src then docs.filter fun e => e.1 ≠ i else docs) := by
  obtain ⟨doc, hread, hr⟩ := Option.bind_eq_some_iff.1 hr
  obtain ⟨t₁, hunlink, hcreate⟩ := Option.bind_eq_some_iff.1 hr
  refine ⟨doc, hread, ?_⟩
  convert (h.unlink hunlink).create hcreate using 1
  split_ifs
  · rw [List.filter_filter]
    simp only [Bool.and_self]
  · rfl
  · rfl
  · rfl

end Holds

/-! ### Purging -/

/-- What `readdir` returns of a directory: its entries, the directory itself and its parent. -/
theorem opendir_eq_some {names : List Bytes} (h : t.opendir d order = some names) :
    ∃ a, t.directory d = some a ∧
      names.Perm ([dot] :: [dot, dot] :: a.keys.map Subtype.val) := by
  obtain ⟨a, ha, hnames⟩ := Option.map_eq_some_iff.1 h
  refine ⟨a, ha, ?_⟩
  subst hnames
  dsimp only
  split_ifs with hperm
  · exact List.isPerm_iff.1 hperm
  · exact List.Perm.refl _

theorem purgeName_eq {dirPath : Bytes} (hp : dirPath ≠ []) (hf : isDocName f.1 = true) :
    t.purgeName cwd dirPath f.1 = (t.unlink (resolve cwd dirPath ++ [f.1])).getD t := by
  rw [purgeName, if_pos hf, resolve, Path.resolve_append_name hp f.2]
  rfl

theorem Holds.unlink_name (h : t.Holds d docs) (hf : isDocName f.1 = true) :
    ((t.unlink (d ++ [f.1])).getD t).Holds d (docs.filter fun e => docFile e.1 ≠ f) := by
  by_cases hmem : ∃ e ∈ docs, docFile e.1 = f
  · obtain ⟨e, he, rfl⟩ := hmem
    obtain ⟨t', ht'⟩ := Option.isSome_iff_exists.1
      (h.isSome_unlink.2 (List.mem_map_of_mem (f := Prod.fst) he))
    have hdocs := h.unlink ht'
    rw [if_pos rfl] at hdocs
    rw [show (docFile e.1).1 = docName e.1 from rfl, ht', Option.getD_some]
    simpa only [docFile_injective.ne_iff] using hdocs
  · have hall : ∀ e ∈ docs, decide (docFile e.1 ≠ f) = true := by
      intro e he
      exact decide_eq_true fun heq => hmem ⟨e, he, heq⟩
    rw [List.filter_eq_self.2 hall]
    rcases hu : t.unlink (d ++ [f.1]) with _ | t'
    · exact h
    · obtain ⟨a, ha, hdocs⟩ := h
      obtain ⟨b, hb, ⟨doc, hdoc⟩, -⟩ := unlink_eq_some.1 hu
      cases ha.symm.trans hb
      obtain ⟨e, he, heq⟩ := List.mem_map.1 ((hdocs.mem_iff hf).1 hdoc)
      exact absurd ⟨e, he, congrArg Sigma.fst heq⟩ hmem

/-- The loop of `purge_docs_in` removes the documents whose names it meets. -/
theorem Holds.purge_loop {dirPath : Bytes} (hp : dirPath ≠ []) {names : List Bytes}
    (hnames : ∀ name ∈ names, isDocName name = true → Path.IsName slash dot name)
    (h : t.Holds (resolve cwd dirPath) docs) :
    (names.foldl (fun t name => t.purgeName cwd dirPath name) t).Holds (resolve cwd dirPath)
      (docs.filter fun e => docName e.1 ∉ names) := by
  induction names generalizing t docs with
  | nil => simpa using h
  | cons name names ih =>
    have htail := fun n hn => hnames n (List.mem_cons_of_mem _ hn)
    rw [List.foldl_cons]
    by_cases hdoc : isDocName name = true
    · have hname := hnames name List.mem_cons_self hdoc
      have hone := h.unlink_name (f := ⟨name, hname⟩) hdoc
      rw [← purgeName_eq hp hdoc] at hone
      convert ih htail hone using 1
      rw [List.filter_filter]
      refine List.filter_congr fun e _ => ?_
      simp [docFile, Subtype.ext_iff, not_or, Bool.and_comm]
    · rw [show t.purgeName cwd dirPath name = t from if_neg hdoc]
      convert ih htail h using 1
      refine List.filter_congr fun e _ => ?_
      have hne : docName e.1 ≠ name := by
        rintro rfl
        exact hdoc isDocName_docFile
      simp [hne]

/-- Purging a directory leaves the others as they are. -/
theorem directory_purge_loop {dirPath : Bytes} (hp : dirPath ≠ []) {names : List Bytes}
    (hnames : ∀ name ∈ names, isDocName name = true → Path.IsName slash dot name)
    (hne : d ≠ resolve cwd dirPath) :
    (names.foldl (fun t name => t.purgeName cwd dirPath name) t).directory d = t.directory d := by
  induction names generalizing t with
  | nil => rfl
  | cons name names ih =>
    have htail := fun n hn => hnames n (List.mem_cons_of_mem _ hn)
    rw [List.foldl_cons, ih htail]
    by_cases hdoc : isDocName name = true
    · have hname := hnames name List.mem_cons_self hdoc
      rw [purgeName_eq (f := ⟨name, hname⟩) hp hdoc]
      rcases hu : t.unlink (resolve cwd dirPath ++ [name]) with _ | t'
      · rfl
      · obtain ⟨a, -, -, rfl⟩ := (unlink_eq_some (f := ⟨name, hname⟩)).1 hu
        exact directory_set_ne hne
    · rw [show t.purgeName cwd dirPath name = t from if_neg hdoc]

/-- The names a directory is read as are names of its entries, but for two that are skipped. -/
theorem isName_of_isDocName {names : List Bytes}
    (hperm : names.Perm ([dot] :: [dot, dot] :: a.keys.map Subtype.val)) :
    ∀ name ∈ names, isDocName name = true → Path.IsName slash dot name := by
  intro name hname hdoc
  rcases List.mem_cons.1 (hperm.mem_iff.1 hname) with rfl | hname
  · rw [isDocName_dot.1] at hdoc
    cases hdoc
  rcases List.mem_cons.1 hname with rfl | hname
  · rw [isDocName_dot.2] at hdoc
    cases hdoc
  · obtain ⟨f, -, rfl⟩ := List.mem_map.1 hname
    exact f.2

theorem directory_purge_ne (hne : d ≠ userDir cwd key.bytes) :
    (t.sandboxPurgeUser cwd key order).directory d = t.directory d := by
  have hp : userDirPath key.bytes ≠ [] := by simp [userDirPath]
  unfold sandboxPurgeUser purgeDocsIn
  split
  · rfl
  · rename_i names hnames
    obtain ⟨a, -, hperm⟩ := opendir_eq_some hnames
    exact directory_purge_loop hp (isName_of_isDocName hperm) hne

/-- A directory that does not exist is not purged. -/
theorem purge_of_none (h : t.directory (userDir cwd key.bytes) = none) :
    t.sandboxPurgeUser cwd key order = t := by
  have hopen : t.opendir (resolve cwd (userDirPath key.bytes)) order = none := by
    rw [opendir, show t.directory (resolve cwd (userDirPath key.bytes)) = none from h]
    rfl
  rw [sandboxPurgeUser, purgeDocsIn, hopen]

/-- **Purging a directory** removes its documents and nothing else. -/
theorem Holds.purge (h : t.Holds d docs) (key : Key) :
    (t.sandboxPurgeUser cwd key order).Holds d
      (if d = userDir cwd key.bytes then [] else docs) := by
  split_ifs with hd
  · subst hd
    have hp : userDirPath key.bytes ≠ [] := by simp [userDirPath]
    unfold sandboxPurgeUser purgeDocsIn
    obtain ⟨b, hb, hdocs⟩ := id h
    split
    · rename_i hnone
      rw [opendir, show t.directory (resolve cwd (userDirPath key.bytes)) = some b from hb] at hnone
      cases hnone
    · rename_i names hnames
      obtain ⟨a, ha, hperm⟩ := opendir_eq_some hnames
      cases ha.symm.trans hb
      have hloop := h.purge_loop hp (isName_of_isDocName hperm)
      have hnone : docs.filter (fun e => docName e.1 ∉ names) = [] := by
        refine List.filter_eq_nil_iff.2 fun e he => ?_
        have hfile := (hdocs.lookup_docFile (i := e.1)).2 ⟨e.2, rfl, he⟩
        have hkey : docFile e.1 ∈ b := AList.lookup_isSome.1 (hfile ▸ rfl)
        have hname : docName e.1 ∈ names := hperm.mem_iff.2
          (List.mem_cons_of_mem _ (List.mem_cons_of_mem _ (List.mem_map_of_mem hkey)))
        simpa using hname
      rwa [hnone] at hloop
  · obtain ⟨b, hb, hdocs⟩ := h
    exact ⟨b, (directory_purge_ne hd).trans hb, hdocs⟩

/-! ### What the functions see -/

/-- The item the loop of `sandbox_list` makes of a name, if any. -/
def listed (t : Tree) (cwd : Dir) (key : Key) (name : Bytes) : Option InvenItem :=
  if isDocName name then (t.sandboxReadDoc cwd key (atoi (name.drop 4))).map invenItem else none

/-- A name that fits into its buffer is listed as it is. -/
theorem invenItem_eq (hlen : doc.name.length < maxNameLen) (hnul : 0 ∉ doc.name) :
    invenItem doc = ⟨doc.docId, doc.tags, doc.name, false⟩ := by
  have hall : doc.name.takeWhile (· ≠ 0) = doc.name :=
    List.takeWhile_eq_self_iff.2 fun b hb => decide_eq_true (ne_of_mem_of_not_mem hb hnul)
  rw [invenItem, cstr, hall, List.take_of_length_le (by omega)]

theorem listed_of_not_doc {name : Bytes} (h : isDocName name = false) :
    t.listed cwd key name = none := by
  rw [listed, if_neg (by rw [h]; exact Bool.false_ne_true)]

/-- What one name adds to the list while there is room. -/
theorem sandboxListLoop_cons {max : ℤ} {name : Bytes} {names : List Bytes} {out : List InvenItem}
    (hroom : (out.length : ℤ) < max) : t.sandboxListLoop cwd key max (name :: names) out =
      t.sandboxListLoop cwd key max names (out ++ (t.listed cwd key name).toList) := by
  rw [sandboxListLoop, if_pos hroom]
  by_cases hdoc : isDocName name = true
  · have hdots : ¬(name = [dot] ∨ name = [dot, dot]) := by
      rintro (rfl | rfl)
      · exact absurd hdoc (by rw [isDocName_dot.1]; exact Bool.false_ne_true)
      · exact absurd hdoc (by rw [isDocName_dot.2]; exact Bool.false_ne_true)
    rw [if_neg hdots, if_neg (by simpa using hdoc), listed, if_pos hdoc]
    rcases t.sandboxReadDoc cwd key (atoi (name.drop 4)) with _ | df
    · exact congrArg _ (List.append_nil _).symm
    · rfl
  · have hno := Bool.eq_false_iff.2 hdoc
    rw [listed_of_not_doc hno, Option.toList_none, List.append_nil, if_pos hno, ite_self]

/-- A list with room for every item holds them in the order of the names. -/
theorem sandboxListLoop_eq {max : ℤ} {names : List Bytes} {out : List InvenItem}
    (h : (out.length + (names.filterMap (t.listed cwd key)).length : ℤ) ≤ max) :
    t.sandboxListLoop cwd key max names out = out ++ names.filterMap (t.listed cwd key) := by
  induction names generalizing out with
  | nil => exact (List.append_nil _).symm
  | cons name names ih =>
    rcases hitem : t.listed cwd key name with _ | item
    · rw [List.filterMap_cons_none hitem] at h ⊢
      by_cases hroom : (out.length : ℤ) < max
      · rw [sandboxListLoop_cons hroom, hitem, Option.toList_none, List.append_nil]
        exact ih h
      · have hnil : names.filterMap (t.listed cwd key) = [] := List.length_eq_zero_iff.1 (by omega)
        rw [sandboxListLoop, if_neg hroom, hnil, List.append_nil]
    · rw [List.filterMap_cons_some hitem] at h ⊢
      rw [List.length_cons] at h
      have hrest : ((out ++ [item]).length +
          (names.filterMap (t.listed cwd key)).length : ℤ) ≤ max := by
        rw [List.length_append, List.length_singleton]
        omega
      rw [sandboxListLoop_cons (by omega), hitem, Option.toList_some, ih hrest, List.append_assoc]
      rfl

/-- **The four views of a directory**, against the documents it holds. -/
structure Views (t : Tree) (cwd : Dir) (key : Key) (docs : List (ℤ × DocFile)) : Prop where
  count : ∀ order, t.sandboxCount cwd key order = some docs.length
  has : ∀ id, t.sandboxHas cwd key id = true ↔ id ∈ docs.map Prod.fst
  read : ∀ id doc, t.sandboxReadDoc cwd key id = some doc ↔ (id, doc) ∈ docs
  list : ∀ (max : ℤ) (order : List Bytes), docs.length ≤ max →
    (t.sandboxList cwd key max order).Perm (docs.map fun e => invenItem e.2)

theorem Holds.exists_opendir (h : t.Holds (userDir cwd key.bytes) docs) (order : List Bytes) :
    ∃ (a : Directory) (names : List Bytes), a.Holds docs ∧
      t.opendir (resolve cwd (userDirPath key.bytes)) order = some names ∧
      names.Perm ([dot] :: [dot, dot] :: a.keys.map Subtype.val) := by
  obtain ⟨a, ha, hdocs⟩ := h
  have hopen : (t.opendir (resolve cwd (userDirPath key.bytes)) order).isSome = true := by
    rw [opendir, Option.isSome_map]
    exact Option.isSome_iff_exists.2 ⟨a, ha⟩
  obtain ⟨names, hnames⟩ := Option.isSome_iff_exists.1 hopen
  obtain ⟨b, hb, hperm⟩ := opendir_eq_some hnames
  cases Option.some.inj (ha.symm.trans hb)
  exact ⟨a, names, hdocs, hnames, hperm⟩

theorem Holds.count (h : t.Holds (userDir cwd key.bytes) docs) (order : List Bytes) :
    t.sandboxCount cwd key order = some docs.length := by
  obtain ⟨a, names, hdocs, hnames, hperm⟩ := h.exists_opendir order
  rw [sandboxCount, hnames, Option.map_some, hperm.countP_eq]
  refine congrArg some ?_
  rw [List.countP_cons_of_neg (by simp), List.countP_cons_of_neg (by simp), List.countP_map,
    AList.keys, List.keys, List.countP_map]
  have hskip : ∀ f : FileName, (f.1 ≠ [dot] ∧ f.1 ≠ [dot, dot] ∧ isDocName f.1 = true) ↔
      isDocName f.1 = true := fun f => ⟨fun h => h.2.2, fun h => ⟨f.2.2.1, f.2.2.2.1, h⟩⟩
  calc a.entries.countP _ = a.entries.countP (fun e => isDocName e.1.1) :=
        List.countP_congr fun e _ => by simpa using hskip e.1
    _ = (docs.map docEntry).length := by rw [List.countP_eq_length_filter, hdocs]
    _ = docs.length := List.length_map _

theorem Holds.list (h : t.Holds (userDir cwd key.bytes) docs)
    (hids : ∀ e ∈ docs, atoi ((docName e.1).drop 4) = e.1) {max : ℤ} (order : List Bytes)
    (hmax : docs.length ≤ max) :
    (t.sandboxList cwd key max order).Perm (docs.map fun e => invenItem e.2) := by
  obtain ⟨a, names, hdocs, hnames, hperm⟩ := h.exists_opendir order
  have hentry : ∀ e ∈ docs, t.listed cwd key (docEntry e).1.1 = some (invenItem e.2) := by
    intro e he
    have hread : t.sandboxReadDoc cwd key e.1 = some e.2 := by
      rw [sandboxReadDoc, resolve_userDocPath]
      exact h.read_iff.2 he
    rw [listed, if_pos (by exact isDocName_docFile), show (docEntry e).1.1 = docName e.1 from rfl,
      hids e he, hread]
    rfl
  -- the entries that are skipped, then those that are documents
  have hitems : ([dot] :: [dot, dot] :: a.keys.map Subtype.val).filterMap (t.listed cwd key) =
      docs.map fun e => invenItem e.2 := by
    rw [List.filterMap_cons_none (listed_of_not_doc isDocName_dot.1),
      List.filterMap_cons_none (listed_of_not_doc isDocName_dot.2), AList.keys, List.keys,
      List.map_map, List.filterMap_map]
    calc a.entries.filterMap (t.listed cwd key ∘ Subtype.val ∘ Sigma.fst)
        = (a.entries.filter fun e => isDocName e.1.1).filterMap
            (t.listed cwd key ∘ Subtype.val ∘ Sigma.fst) := by
          rw [List.filterMap_filter]
          refine List.filterMap_congr fun e _ => ?_
          split_ifs with hdoc
          · rfl
          · exact listed_of_not_doc (Bool.eq_false_iff.2 hdoc)
      _ = docs.filterMap fun e => some (invenItem e.2) := by
          rw [hdocs, List.filterMap_map]
          exact List.filterMap_congr hentry
      _ = docs.map fun e => invenItem e.2 := congrFun List.filterMap_eq_map' docs
  have hfound : (names.filterMap (t.listed cwd key)).Perm (docs.map fun e => invenItem e.2) :=
    hitems ▸ hperm.filterMap _
  have hlen := hfound.length_eq
  rw [List.length_map] at hlen
  rw [sandboxList, hnames]
  dsimp only
  rw [sandboxListLoop_eq (by rw [hlen]; simpa using hmax), List.nil_append]
  exact hfound

/-- **The four functions see the documents of the directory.** -/
theorem Holds.views (h : t.Holds (userDir cwd key.bytes) docs)
    (hids : ∀ e ∈ docs, atoi ((docName e.1).drop 4) = e.1) : t.Views cwd key docs where
  count := h.count
  has id := by
    rw [sandboxHas, resolve_userDocPath]
    exact h.isSome_stat
  read id doc := by
    rw [sandboxReadDoc, resolve_userDocPath]
    exact h.read_iff
  list _ order hmax := h.list hids order hmax

end Tree

end UnderFlow
