import UnderFlow.Server.Footprint

/-!
# Document files

* `files_step` : what a step can do to the files.
* `get_step` : a document that is there after a step was there before, or has been put there.
* `Files.Housed`, `housed_step` : documents are in directories that exist.
-/

namespace UnderFlow

variable {s s' : Shared} {c : Choice} {o : Op} {r : o.Ret} {d : Dir} {i : ℤ} {doc : DocFile}

/-- What an operation can do to the files. -/
inductive FilesStep (s : Shared) (o : Op) (fs' : Files) : Prop
  | same (h : fs' = s.files)
  | move (src dst : Folder) (docId : ℤ) (doc : DocFile) (ho : o = .rename src dst docId)
      (hget : s.files.get (src.dir s.cwd) docId = some doc)
      (h : fs' = (s.files.del (src.dir s.cwd) docId).put (dst.dir s.cwd) docId doc)
  | remove (f : Folder) (docId : ℤ) (ho : o = .unlink f docId)
      (h : fs' = (s.files.unlink (f.dir s.cwd) docId).2)
  | write (doc : DocFile) (ho : o = .writeMaster doc)
      (h : fs' = s.files.put (masterDir s.cwd) doc.docId doc)
  | mkdir (f : Folder) (ho : o = .mkdir f) (h : s.files.mkdir (f.dir s.cwd) = some fs')

/-- **What a step can do to the files.** -/
theorem files_step (h : o.exec s c = some (s', r)) : FilesStep s o s'.files := by
  by_cases ho : o.store = some .files
  · cases o <;> simp only [Op.store, Option.some.injEq, reduceCtorEq] at ho
    · rename_i src dst docId
      simp only [Op.exec] at h
      split at h
      · cases h
        exact .same rfl
      · rename_i fs hfs
        cases h
        split_ifs at hfs
        obtain ⟨doc, hget, -, rfl⟩ := Files.rename_eq_some.1 hfs
        exact .move src dst docId doc rfl hget rfl
    · rename_i f docId
      simp only [Op.exec] at h
      split_ifs at h <;> cases h
      · exact .remove f docId rfl rfl
      · exact .same rfl
    · rename_i doc
      simp only [Op.exec] at h
      split at h
      · cases h
        exact .same rfl
      · rename_i fs hfs
        cases h
        simp only [Files.write] at hfs
        split_ifs at hfs
        cases hfs
        exact .write doc rfl rfl
    · rename_i f
      simp only [Op.exec] at h
      split at h
      · cases h
        exact .same rfl
      · rename_i fs hfs
        cases h
        split_ifs at hfs
        exact .mkdir f rfl hfs
  · exact .same ((exec_frame h).files ho)

/-- Where an operation puts a document. -/
def Op.puts (cwd : Dir) : Op → Option (Dir × ℤ)
  | .rename _ dst docId => some (dst.dir cwd, docId)
  | .writeMaster doc => some (masterDir cwd, doc.docId)
  | _ => none

theorem get_mkdir {fs fs' : Files} {d' : Dir} (h : fs.mkdir d' = some fs')
    (hget : fs'.get d i = some doc) : fs.get d i = some doc := by
  simp only [Files.mkdir] at h
  split_ifs at h <;> cases h
  · exact hget
  · by_cases hd : d = d'
    · subst hd
      simp [Files.get] at hget
    · simpa [Files.get, Function.update_of_ne hd] using hget

/-- A document that is there after a step was there before, or has been put there. -/
theorem get_step (h : o.exec s c = some (s', r)) (hget : s'.files.get d i = some doc) :
    s.files.get d i = some doc ∨ o.puts s.cwd = some (d, i) := by
  cases files_step h with
  | same hfs => exact .inl (hfs ▸ hget)
  | move src dst docId doc' ho _ hfs =>
    rw [hfs, Files.get_put, Files.get_del] at hget
    by_cases hdst : d = dst.dir s.cwd ∧ i = docId
    · obtain ⟨rfl, rfl⟩ := hdst
      exact .inr (by rw [ho]; rfl)
    · rw [if_neg hdst] at hget
      split_ifs at hget
      exact .inl hget
  | remove f docId _ hfs =>
    rw [hfs, Files.get_unlink] at hget
    split_ifs at hget
    exact .inl hget
  | write doc' ho hfs =>
    rw [hfs, Files.get_put] at hget
    by_cases hdst : d = masterDir s.cwd ∧ i = doc'.docId
    · obtain ⟨rfl, rfl⟩ := hdst
      exact .inr (by rw [ho]; rfl)
    · rw [if_neg hdst] at hget
      exact .inl hget
  | mkdir f _ hfs => exact .inl (get_mkdir hfs hget)

/-- No directory is removed. -/
theorem dirs_subset {r : o.Ret} (h : o.exec s c = some (s', r)) : s.files.dirs ⊆ s'.files.dirs := by
  cases files_step h with
  | same hfs => rw [hfs]; exact List.Subset.refl _
  | move src dst docId doc _ _ hfs => rw [hfs]; exact List.Subset.refl _
  | remove f docId _ hfs => rw [hfs, Files.dirs_unlink]; exact List.Subset.refl _
  | write doc _ hfs => rw [hfs]; exact List.Subset.refl _
  | mkdir f _ hfs =>
    simp only [Files.mkdir] at hfs
    split_ifs at hfs <;> rw [← Option.some.inj hfs]
    · exact List.Subset.refl _
    · exact List.subset_cons_self _ _

/-! ### The documents of a directory -/

/-- Documents are in directories that exist. -/
def Files.Housed (fs : Files) : Prop := ∀ d, d ∉ fs.dirs → fs.docs d = []

theorem docs_eq_nil {fs : Files} : fs.docs d = [] ↔ ∀ i, fs.get d i = none := by
  constructor
  · intro h i
    rw [Files.get, h]
    rfl
  · intro h
    rcases hdocs : fs.docs d with _ | ⟨e, es⟩
    · rfl
    · have hget := h e.1
      rw [Files.get, hdocs, List.find?_cons_of_pos (by simp)] at hget
      cases hget

theorem docs_del {fs : Files} {d' : Dir} {i : ℤ} : (fs.del d' i).docs d =
    if d = d' then (fs.docs d).filter fun e => e.1 ≠ i else fs.docs d := by
  by_cases hd : d = d'
  · subst hd
    simp [Files.del]
  · simp [Files.del, hd]

theorem docs_put {fs : Files} {d' : Dir} {i : ℤ} {doc : DocFile} : (fs.put d' i doc).docs d =
    if d = d' then (i, doc) :: (fs.docs d).filter fun e => e.1 ≠ i else fs.docs d := by
  by_cases hd : d = d'
  · subst hd
    simp [Files.put]
  · simp [Files.put, hd]

/-- A document that is removed is gone. -/
theorem docs_unlink {fs : Files} {d' : Dir} {i : ℤ} : (fs.unlink d' i).2.docs d =
    if d = d' then (fs.docs d).filter fun e => e.1 ≠ i else fs.docs d := by
  unfold Files.unlink
  split
  · rename_i hget
    split_ifs with hd
    · subst hd
      refine (List.filter_eq_self.2 fun e he => ?_).symm
      have hne := List.find?_eq_none.1 (Option.map_eq_none_iff.1 hget) e he
      simpa using hne
    · rfl
  · exact docs_del

theorem Files.Housed.del {fs : Files} (h : fs.Housed) (i : ℤ) : (fs.del d i).Housed := by
  intro d' hd'
  rw [docs_del, h d' hd']
  split_ifs <;> rfl

theorem Files.Housed.put {fs : Files} (h : fs.Housed) (hd : d ∈ fs.dirs) (i : ℤ) (doc : DocFile) :
    (fs.put d i doc).Housed := by
  intro d' hd'
  have hne : d' ≠ d := by
    rintro rfl
    exact hd' hd
  rw [docs_put, if_neg hne, h d' hd']

theorem housed_step {r : o.Ret} (hW : s.files.Housed) (h : o.exec s c = some (s', r)) :
    s'.files.Housed := by
  cases files_step h with
  | same hfs => rwa [hfs]
  | remove f docId ho hfs =>
    rw [hfs, Files.unlink]
    split
    · exact hW
    · exact hW.del docId
  | move src dst docId doc ho hget hfs =>
    subst ho
    simp only [Op.exec] at h
    split at h
    · cases h
      exact hW
    · rename_i fs hr
      cases h
      split_ifs at hr
      obtain ⟨doc', -, hdst, rfl⟩ := Files.rename_eq_some.1 hr
      exact (hW.del docId).put hdst docId doc'
  | write doc ho hfs =>
    subst ho
    simp only [Op.exec] at h
    split at h
    · cases h
      exact hW
    · rename_i fs hr
      cases h
      simp only [Files.write] at hr
      split_ifs at hr with hok hdir
      cases hr
      exact hW.put hdir doc.docId doc
  | mkdir f ho hfs =>
    intro d' hd'
    simp only [Files.mkdir] at hfs
    split_ifs at hfs with hdir hparent
    · rw [← Option.some.inj hfs] at hd' ⊢
      exact hW d' hd'
    · rw [← Option.some.inj hfs] at hd' ⊢
      rw [List.mem_cons, not_or] at hd'
      simp only [Function.update_of_ne hd'.1]
      exact hW d' hd'.2

end UnderFlow
