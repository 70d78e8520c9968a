import AthenX.Files.Names
import AthenX.Lib.Table

/-!
# The list of open files

`fopen` and `fclose` of `drivers/VFS/file.c` keep the handles of the FAT library,
`drivers/fs/fat32/fat_filelib.c`, in `open_files`. The library has fifty of them, free or open.

`fclose` looks for the text of the path and name, removes every entry with it, and skips one after
each removal. This is harmless because the library does not open a file if an open one has the same
text. One file can be open several times, under different spellings.

What the library finds on the disk is a parameter of each call.
-/

namespace AthenX.Files

open Table List

/-! ### The FAT library -/

/-- `FATFS_MAX_OPEN_FILES`. -/
abbrev fatfsMaxOpenFiles : ℕ := 50

/-- A pointer to an element of `_files`. -/
abbrev Handle := Fin fatfsMaxOpenFiles

/-- The fields of a file handle that tell which file it is. -/
structure FlFile where
  path : Text
  filename : Text
  deriving DecidableEq, Repr

/-- The variables of the library, and those of `file.c`. -/
structure FileLib where
  /-- `_files`. -/
  file : Handle → FlFile
  openFileList : List Handle
  freeFileList : List Handle
  openFiles : ℕ → Option Handle
  openFilesCount : ℕ

/-- What a call finds outside: the disk, and the text in a new block. -/
structure Outside where
  /-- `_filelib_valid`: is a disk attached? -/
  filelibValid : Bool
  /-- `_open_directory`: is there such a directory? -/
  openDirectory : Text → Bool
  /-- `fatfs_get_file_entry`: is there an entry, and is it a file? -/
  fileEntry : FlFile → Option Bool
  /-- Is there space for a new file, a short name for it, and room for its entry? -/
  addFileEntry : Bool
  /-- `disk_io.write_media`: can the disk be written? -/
  writeMedia : Bool
  /-- What `malloc` returns is not cleared. -/
  stale : Text

/-- `fl_init`. -/
def flInit : FileLib where
  file := fun _ => ⟨[], []⟩
  openFileList := []
  freeFileList := List.finRange fatfsMaxOpenFiles
  openFiles := fun _ => none
  openFilesCount := 0

/-- `_allocate_file`. -/
def allocateFile (s : FileLib) : Option (FileLib × Handle) :=
  match s.freeFileList with
  | [] => none
  | f :: rest => some ({ s with freeFileList := rest, openFileList := s.openFileList ++ [f] }, f)

/-- `_free_file`. -/
def freeFile (s : FileLib) (f : Handle) : FileLib :=
  { s with openFileList := s.openFileList.erase f, freeFileList := s.freeFileList ++ [f] }

/-- `_check_file_open`: has another open file the same path and name? -/
def checkFileOpen (s : FileLib) (f : Handle) : Bool :=
  s.openFileList.any fun g => g ≠ f && compareNames (s.file g).path (s.file f).path &&
    compareNames (s.file g).filename (s.file f).filename

/-- Write the names of a handle. -/
def setNames (s : FileLib) (f : Handle) (names : FlFile) : FileLib :=
  { s with file := Function.update s.file f names }

/-- The first part of `_open_file` and `_create_file`: a handle, if the path is not open. -/
def claimFile (o : Outside) (s : FileLib) (path : Text) : FileLib × Option Handle :=
  match allocateFile s with
  | none => (s, none)
  | some (s, f) =>
      match splitPath path with
      | none => (freeFile (setNames s f ⟨[], []⟩) f, none)
      | some (dir, filename) =>
          let s := setNames s f ⟨dir, filename⟩
          if checkFileOpen s f then (freeFile s f, none)
          else if !dir.isEmpty && !o.openDirectory dir then (freeFile s f, none)
          else (s, some f)

/-- `_open_file`. -/
def openFile (o : Outside) (s : FileLib) (path : Text) : FileLib × Option Handle :=
  match claimFile o s path with
  | (s, none) => (s, none)
  | (s, some f) =>
      if o.fileEntry (s.file f) = some true then (s, some f) else (freeFile s f, none)

/-- `_create_file`. -/
def createFile (o : Outside) (s : FileLib) (path : Text) : FileLib × Option Handle :=
  if !o.writeMedia then (s, none)
  else
    match claimFile o s path with
    | (s, none) => (s, none)
    | (s, some f) =>
        if (o.fileEntry (s.file f)).isSome || !o.addFileEntry then (freeFile s f, none)
        else (s, some f)

/-- The flags of a mode. -/
structure Flags where
  read : Bool
  write : Bool
  append : Bool
  binary : Bool
  erase : Bool
  create : Bool
  deriving DecidableEq, Repr

/-- The switch of `fl_fopen` over one character of the mode. -/
def Flags.add (flags : Flags) (c : Char) : Flags :=
  if c = 'r' ∨ c = 'R' then { flags with read := true }
  else if c = 'w' ∨ c = 'W' then { flags with write := true, erase := true, create := true }
  else if c = 'a' ∨ c = 'A' then { flags with write := true, append := true, create := true }
  else if c = '+' then
    if flags.read then { flags with write := true }
    else if flags.write then { flags with read := true, erase := true, create := true }
    else if flags.append then
      { flags with read := true, write := true, append := true, create := true }
    else flags
  else if c = 'b' ∨ c = 'B' then { flags with binary := true }
  else flags

/-- The flags of `fl_fopen`, without those for writing if the disk cannot be written. -/
def modeFlags (o : Outside) (mode : Text) : Flags :=
  let flags := mode.foldl Flags.add ⟨false, false, false, false, false, false⟩
  if o.writeMedia then flags else { flags with create := false, write := false, append := false }

/-- `fl_fopen`. -/
def flFopen (o : Outside) (s : FileLib) (path mode : Text) : FileLib × Option Handle :=
  let path := pathToUse '/' o.stale path
  if !o.filelibValid then (s, none)
  else
    let flags := modeFlags o mode
    let (s, file) := if flags.read then openFile o s path else (s, none)
    let (s, file) := if file.isNone && flags.create then createFile o s path else (s, file)
    if file.isNone && (!flags.read && flags.create && (flags.write || flags.append)) then
      openFile o s path
    else (s, file)

/-! ### `fopen` and `fclose` -/

/-- `fopen`, for a path that names no device, after `process_path`. -/
def fopen (o : Outside) (s : FileLib) (path mode : Text) : FileLib × Option Handle :=
  match flFopen o s path mode with
  | (s, none) => (s, none)
  | (s, some f) =>
      ({ s with
          openFiles := Function.update s.openFiles s.openFilesCount (some f)
          openFilesCount := s.openFilesCount + 1 }, some f)

/-- The loop of `fclose` from entry `i` on, at most `k` times. Entries are compared by their texts.
-/
def unlist (f : Handle) : ℕ → ℕ → FileLib → Option FileLib
  | 0, _, s => some s
  | k + 1, i, s =>
      if i < s.openFilesCount then
        match s.openFiles i with
        | none => none
        | some g =>
            unlist f k (i + 1) <|
              if (s.file f).path = (s.file g).path ∧ (s.file g).filename = (s.file f).filename then
                { s with
                  openFiles := remove s.openFiles i s.openFilesCount none
                  openFilesCount := s.openFilesCount - 1 }
              else s
      else some s

/-- `fclose`. The count bounds its loop, and `fl_fclose` frees the handle. -/
def fclose (s : FileLib) (f : Handle) : Option FileLib :=
  (unlist f s.openFilesCount 0 s).map fun s => freeFile s f

/-- The calls of `fopen`, with the handles returned, and of `fclose`, with open ones. -/
inductive FileRun : FileLib → List Handle → Prop
  | start : FileRun flInit []
  | fopen {s s' : FileLib} {live : List Handle} {o : Outside} {path mode : Text}
      {ret : Option Handle} : FileRun s live → fopen o s path mode = (s', ret) →
      FileRun s' (live ++ ret.toList)
  | fclose {s s' : FileLib} {live : List Handle} {f : Handle} : FileRun s live → f ∈ live →
      fclose s f = some s' → FileRun s' (live.erase f)

/-! ### What the library does to the handles -/

/-- No other handle is open than before. -/
structure Kept (s s' : FileLib) : Prop where
  openList : s'.openFileList = s.openFileList
  freeList : s'.freeFileList.Perm s.freeFileList
  file : ∀ g ∈ s.openFileList, s'.file g = s.file g
  openFiles : s'.openFiles = s.openFiles
  count : s'.openFilesCount = s.openFilesCount

/-- One free handle has been opened, under a text that no other one has. -/
structure Claimed (s s' : FileLib) (f : Handle) : Prop where
  openList : s'.openFileList = s.openFileList ++ [f]
  freeList : s.freeFileList.Perm (f :: s'.freeFileList)
  file : ∀ g ∈ s.openFileList, s'.file g = s.file g
  fresh : ∀ g ∈ s.openFileList, s'.file g ≠ s'.file f
  openFiles : s'.openFiles = s.openFiles
  count : s'.openFilesCount = s.openFilesCount

/-- A call has opened the handle it returned, and no other. -/
def Outcome (s : FileLib) : FileLib × Option Handle → Prop
  | (s', none) => Kept s s'
  | (s', some f) => Claimed s s' f

/-- No handle is on the two lists twice. -/
def Distinct (s : FileLib) : Prop := (s.openFileList ++ s.freeFileList).Nodup

section

variable {s s' s'' : FileLib} {f : Handle}

theorem Kept.refl (s : FileLib) : Kept s s := ⟨rfl, .refl _, fun _ _ => rfl, rfl, rfl⟩

theorem Kept.distinct (h : Kept s s') (hd : Distinct s) : Distinct s' := by
  rw [Distinct, h.openList, (h.freeList.append_left _).nodup_iff]
  exact hd

theorem Claimed.distinct (h : Claimed s s' f) (hd : Distinct s) : Distinct s' := by
  rw [Distinct, h.openList, append_assoc, singleton_append, ← (h.freeList.append_left _).nodup_iff]
  exact hd

theorem Kept.outcome (h : Kept s s') {x : FileLib × Option Handle} (hx : Outcome s' x) :
    Outcome s x := by
  obtain ⟨s'', ret⟩ := x
  have hmem : ∀ {g}, g ∈ s.openFileList → g ∈ s'.openFileList := by
    intro g hg
    rwa [h.openList]
  cases ret with
  | none =>
    exact ⟨hx.openList.trans h.openList, hx.freeList.trans h.freeList,
      fun g hg => (hx.file g (hmem hg)).trans (h.file g hg), hx.openFiles.trans h.openFiles,
      hx.count.trans h.count⟩
  | some f =>
    exact ⟨by rw [hx.openList, h.openList], h.freeList.symm.trans hx.freeList,
      fun g hg => (hx.file g (hmem hg)).trans (h.file g hg), fun g hg => hx.fresh g (hmem hg),
      hx.openFiles.trans h.openFiles, hx.count.trans h.count⟩

theorem kept_freeFile (hd : Distinct s) (hopen : s'.openFileList = s.openFileList ++ [f])
    (hfree : s.freeFileList.Perm (f :: s'.freeFileList))
    (hfile : ∀ g ∈ s.openFileList, s'.file g = s.file g) (hfiles : s'.openFiles = s.openFiles)
    (hcount : s'.openFilesCount = s.openFilesCount) : Kept s (freeFile s' f) := by
  have hnot : f ∉ s.openFileList := fun hmem =>
    disjoint_of_nodup_append hd hmem (hfree.mem_iff.mpr mem_cons_self)
  refine ⟨?_, ?_, hfile, hfiles, hcount⟩
  · show s'.openFileList.erase f = s.openFileList
    rw [hopen, erase_append_right _ hnot, erase_cons_head, append_nil]
  · exact (perm_append_singleton f s'.freeFileList).trans hfree.symm

theorem Claimed.freeFile (h : Claimed s s' f) (hd : Distinct s) : Kept s (freeFile s' f) :=
  kept_freeFile hd h.openList h.freeList h.file h.openFiles h.count

/-- **The check of the library**: the text of another open handle is a different one. -/
theorem ne_of_checkFileOpen (h : checkFileOpen s f = false) :
    ∀ g ∈ s.openFileList, g ≠ f → s.file g ≠ s.file f := by
  intro g hg hne heq
  have hcheck := any_eq_false.mp h g hg
  rw [heq, compareNames_self, compareNames_self] at hcheck
  simp [hne] at hcheck

section

variable (o : Outside) (hd : Distinct s) (path : Text)

include o hd path

theorem claimFile_outcome : Outcome s (claimFile o s path) := by
  unfold claimFile allocateFile
  cases hfree : s.freeFileList with
  | nil => exact Kept.refl s
  | cons f rest =>
    have hperm : s.freeFileList.Perm (f :: rest) := by rw [hfree]
    have hnot : ∀ g ∈ s.openFileList, g ≠ f := by
      rintro g hg rfl
      exact disjoint_of_nodup_append hd hg (by rw [hfree]; exact mem_cons_self)
    have hfile : ∀ (names : FlFile), ∀ g ∈ s.openFileList,
        Function.update s.file f names g = s.file g :=
      fun names g hg => Function.update_of_ne (hnot g hg) names s.file
    dsimp only
    split
    · exact kept_freeFile hd rfl hperm (hfile _) rfl rfl
    · next dir filename _ =>
      split
      · exact kept_freeFile hd rfl hperm (hfile _) rfl rfl
      · next hcheck =>
        split
        · exact kept_freeFile hd rfl hperm (hfile _) rfl rfl
        · refine ⟨rfl, hperm, hfile _, fun g hg => ?_, rfl, rfl⟩
          exact ne_of_checkFileOpen (by simpa using hcheck) g (mem_append_left _ hg) (hnot g hg)

theorem openFile_outcome : Outcome s (openFile o s path) := by
  have h := claimFile_outcome o hd path
  unfold openFile
  generalize claimFile o s path = x at h ⊢
  obtain ⟨s', ret⟩ := x
  cases ret with
  | none => exact h
  | some f =>
    dsimp only
    split
    · exact h
    · exact Claimed.freeFile h hd

theorem createFile_outcome : Outcome s (createFile o s path) := by
  have h := claimFile_outcome o hd path
  unfold createFile
  split
  · exact Kept.refl s
  · generalize claimFile o s path = x at h ⊢
    obtain ⟨s', ret⟩ := x
    cases ret with
    | none => exact h
    | some f =>
      dsimp only
      split
      · exact Claimed.freeFile h hd
      · exact h

end

theorem Outcome.retry (hd : Distinct s) {x : FileLib × Option Handle} (hx : Outcome s x) (b : Bool)
    {g : FileLib → FileLib × Option Handle} (hg : ∀ s', Distinct s' → Outcome s' (g s')) :
    Outcome s (if x.2.isNone && b then g x.1 else x) := by
  obtain ⟨s', ret⟩ := x
  cases ret with
  | some f => exact hx
  | none =>
    cases b with
    | false => exact hx
    | true => exact Kept.outcome hx (hg s' (Kept.distinct hx hd))

/-- **A handle that `fl_fopen` returns was free**, and no open handle has its text. -/
theorem flFopen_outcome (o : Outside) (hd : Distinct s) (path mode : Text) :
    Outcome s (flFopen o s path mode) := by
  unfold flFopen
  generalize pathToUse '/' o.stale path = path
  split
  · exact Kept.refl s
  · set flags := modeFlags o mode
    have hopen : ∀ s', Distinct s' → Outcome s' (openFile o s' path) :=
      fun s' hd' => openFile_outcome o hd' path
    have hcreate : ∀ s', Distinct s' → Outcome s' (createFile o s' path) :=
      fun s' hd' => createFile_outcome o hd' path
    have hread : Outcome s (if flags.read then openFile o s path else (s, none)) := by
      split
      · exact hopen s hd
      · exact Kept.refl s
    exact ((hread.retry hd flags.create hcreate).retry hd _ hopen)

end

/-! ### The invariant -/

/-- The open handles are those of the list, in order, with different texts, and in `open_files`. -/
structure Opened (s : FileLib) (live : List Handle) : Prop where
  openList : s.openFileList = live
  distinct : Distinct s
  apart : (live.map s.file).Nodup
  table : entries s.openFiles s.openFilesCount = live.map some

/-- `open_files` holds these handles, and they have different texts. -/
structure Listed (s : FileLib) (live : List Handle) : Prop where
  apart : (live.map s.file).Nodup
  table : entries s.openFiles s.openFilesCount = live.map some

section

variable {s s' : FileLib} {live : List Handle} {f : Handle}

theorem Opened.nodup (h : Opened s live) : live.Nodup := h.openList ▸ h.distinct.of_append_left

theorem Opened.listed (h : Opened s live) : Listed s live := ⟨h.apart, h.table⟩

theorem Listed.nodup (h : Listed s live) : live.Nodup := h.apart.of_map s.file

theorem Listed.length (h : Listed s live) : s.openFilesCount = live.length := by
  have hlen := congrArg List.length h.table
  simpa using hlen

theorem Opened.fopen (h : Opened s live) {o : Outside} {path mode : Text} {ret : Option Handle}
    (hres : fopen o s path mode = (s', ret)) : Opened s' (live ++ ret.toList) := by
  have hout := flFopen_outcome o h.distinct path mode
  unfold Files.fopen at hres
  generalize flFopen o s path mode = x at hout hres
  obtain ⟨s1, r⟩ := x
  cases r with
  | none =>
    obtain ⟨rfl, rfl⟩ := Prod.mk.inj hres
    have hk : Kept s s1 := hout
    have hfile : live.map s1.file = live.map s.file :=
      map_congr_left fun g hg => hk.file g (h.openList ▸ hg)
    simp only [Option.toList_none, append_nil]
    exact ⟨hk.openList.trans h.openList, hk.distinct h.distinct, by rw [hfile]; exact h.apart,
      by rw [hk.openFiles, hk.count, h.table]⟩
  | some f =>
    cases hres
    have hc : Claimed s s1 f := hout
    have hfile : live.map s1.file = live.map s.file :=
      map_congr_left fun g hg => hc.file g (h.openList ▸ hg)
    refine ⟨by rw [hc.openList, h.openList]; rfl, hc.distinct h.distinct, ?_, ?_⟩
    · show ((live ++ [f]).map s1.file).Nodup
      rw [map_append, hfile]
      refine List.Nodup.append h.apart (nodup_singleton _) ?_
      intro names hmem hf
      rw [mem_singleton.mp hf, ← hfile] at hmem
      obtain ⟨g, hg, heq⟩ := mem_map.mp hmem
      exact hc.fresh g (h.openList ▸ hg) heq
    · rw [entries_put, hc.openFiles, hc.count, h.table, map_append]
      rfl

/-- The comparison of `fclose`. -/
theorem same_text_iff (a b : FlFile) : a.path = b.path ∧ b.filename = a.filename ↔ a = b := by
  obtain ⟨path, filename⟩ := a
  obtain ⟨path', filename'⟩ := b
  simp [eq_comm]

theorem unlist_succ {i k : ℕ} {g : Handle} (hi : i < s.openFilesCount)
    (hg : s.openFiles i = some g) (hne : s.file f ≠ s.file g) :
    unlist f (k + 1) i s = unlist f k (i + 1) s := by
  simp [unlist, if_pos hi, hg, same_text_iff, if_neg hne]

theorem unlist_passed {i k : ℕ}
    (hne : ∀ j, i ≤ j → j < s.openFilesCount → ∃ g, s.openFiles j = some g ∧ s.file f ≠ s.file g) :
    unlist f k i s = some s := by
  induction k generalizing i with
  | zero => rfl
  | succ k ih =>
    by_cases hi : i < s.openFilesCount
    · obtain ⟨g, hg, hfile⟩ := hne i (Nat.le_refl i) hi
      rw [unlist_succ hi hg hfile]
      exact ih fun j hj hlt => hne j (by omega) hlt
    · simp [unlist, if_neg hi]

/-- **The loop of `fclose`** removes entry `m`, if only it has the text. -/
theorem unlist_found {m : ℕ} (hm : m < s.openFilesCount) (hentry : s.openFiles m = some f)
    (hne : ∀ j < s.openFilesCount, j ≠ m → ∃ g, s.openFiles j = some g ∧ s.file f ≠ s.file g) :
    ∀ {k i : ℕ}, i ≤ m → m < i + k →
    unlist f k i s = some { s with
      openFiles := remove s.openFiles m s.openFilesCount none
      openFilesCount := s.openFilesCount - 1 } := by
  intro k
  induction k with
  | zero => intro i hi hk; omega
  | succ k ih =>
    intro i hi hk
    rcases Nat.lt_or_ge i m with hlt | hge
    · obtain ⟨g, hg, hfile⟩ := hne i (by omega) (by omega)
      rw [unlist_succ (by omega) hg hfile]
      exact ih (by omega) (by omega)
    · obtain rfl : i = m := by omega
      simp only [unlist, if_pos hm, hentry]
      -- the entries behind have moved down by one
      refine unlist_passed fun j hj hlt => ?_
      have hlt' : j < s.openFilesCount - 1 := hlt
      obtain ⟨g, hg, hfile⟩ := hne (j + 1) (by omega) (by omega)
      exact ⟨g, by rw [← hg]; exact remove_of_ge _ (by omega) hlt' none, hfile⟩

theorem Listed.entry (h : Listed s live) {j : ℕ} (hj : j < s.openFilesCount) :
    ∃ g, live[j]? = some g ∧ s.openFiles j = some g := by
  have hget := getElem?_entries s.openFiles hj
  rw [h.table, List.getElem?_map, Option.map_eq_some_iff] at hget
  obtain ⟨g, hg, heq⟩ := hget
  exact ⟨g, hg, heq.symm⟩

/-- **The loop of `fclose` for a handle in the list** removes that handle only. -/
theorem Listed.unlist (h : Listed s live) (hf : f ∈ live) :
    ∃ a n, unlist f s.openFilesCount 0 s = some { s with openFiles := a, openFilesCount := n } ∧
      Listed { s with openFiles := a, openFilesCount := n } (live.erase f) := by
  obtain ⟨l1, l2, -, rfl, herase⟩ := exists_erase_eq hf
  have hlen : s.openFilesCount = l1.length + (l2.length + 1) := by simpa using h.length
  have hapart := h.apart
  rw [map_append] at hapart
  have hfront : s.file f ∉ l1.map s.file := fun hmem =>
    disjoint_of_nodup_append hapart hmem mem_cons_self
  have hback : s.file f ∉ l2.map s.file := (nodup_cons.mp hapart.of_append_right).1
  have hentry : s.openFiles l1.length = some f := by
    obtain ⟨g, hg, heq⟩ := h.entry (show l1.length < s.openFilesCount by omega)
    rw [heq, ← hg]
    simp
  have hother : ∀ j < s.openFilesCount, j ≠ l1.length →
      ∃ g, s.openFiles j = some g ∧ s.file f ≠ s.file g := by
    intro j hj hne
    obtain ⟨g, hg, heq⟩ := h.entry hj
    refine ⟨g, heq, fun hfile => ?_⟩
    rcases Nat.lt_or_ge j l1.length with hlt | hge
    · rw [List.getElem?_append_left hlt] at hg
      exact hfront (hfile ▸ mem_map_of_mem (mem_of_getElem? hg))
    · rw [List.getElem?_append_right hge, show j - l1.length = j - l1.length - 1 + 1 by omega] at hg
      exact hback (hfile ▸ mem_map_of_mem (mem_of_getElem? hg))
  refine ⟨_, _, unlist_found (by omega) hentry hother (Nat.zero_le _) (by omega), ?_, ?_⟩
  · exact h.apart.sublist (List.Sublist.map _ erase_sublist)
  · show entries (remove s.openFiles l1.length s.openFilesCount none) (s.openFilesCount - 1) = _
    rw [entries_remove _ (by omega), h.table, herase, map_append,
      eraseIdx_append_of_length_le (by simp)]
    simp

/-- `fclose` of a handle in the list returns. -/
theorem Listed.fclose (h : Listed s live) (hf : f ∈ live) :
    ∃ a n, fclose s f = some (freeFile { s with openFiles := a, openFilesCount := n } f) ∧
      Listed (freeFile { s with openFiles := a, openFilesCount := n } f) (live.erase f) := by
  obtain ⟨a, n, hres, hl⟩ := h.unlist hf
  exact ⟨a, n, by rw [Files.fclose, hres]; rfl, hl.apart, hl.table⟩

/-- **`fclose` of an open handle** returns, and removes the handle and no other. -/
theorem Opened.fclose (h : Opened s live) (hf : f ∈ live) :
    ∃ s', fclose s f = some s' ∧ Opened s' (live.erase f) := by
  obtain ⟨a, n, hres, hl⟩ := h.listed.fclose hf
  refine ⟨_, hres, ?_, ?_, hl.apart, hl.table⟩
  · show s.openFileList.erase f = _
    rw [h.openList]
  · have hd := h.distinct
    rw [Distinct, h.openList, ((perm_cons_erase hf).append_right _).nodup_iff] at hd
    show (s.openFileList.erase f ++ (s.freeFileList ++ [f])).Nodup
    rw [h.openList, ← append_assoc, (perm_append_singleton f _).nodup_iff]
    exact hd

end

/-! ### Runs -/

theorem opened_of_run {s : FileLib} {live : List Handle} (h : FileRun s live) : Opened s live := by
  induction h with
  | start => exact ⟨rfl, nodup_finRange _, nodup_nil, rfl⟩
  | fopen _ hres ih => exact ih.fopen hres
  | fclose _ hf hres ih =>
    obtain ⟨s'', hres', hopened⟩ := ih.fclose hf
    cases hres.symm.trans hres'
    exact hopened

/-- **The list of open files** holds the handles that are returned and not closed, each once, at
most `FATFS_MAX_OPEN_FILES`, and each can be closed. -/
theorem files_of_run {s : FileLib} {live : List Handle} (h : FileRun s live) :
    entries s.openFiles s.openFilesCount = live.map some ∧ live.Nodup ∧
      s.openFilesCount ≤ fatfsMaxOpenFiles ∧ ∀ f ∈ live, (fclose s f).isSome = true := by
  have hopened := opened_of_run h
  refine ⟨hopened.table, hopened.nodup, ?_, fun f hf => ?_⟩
  · have hcard := hopened.nodup.length_le_card
    rw [Fintype.card_fin] at hcard
    rw [hopened.listed.length]
    exact hcard
  · obtain ⟨s', hres, -⟩ := hopened.fclose hf
    rw [hres, Option.isSome_some]

/-- A disk on which every file exists. -/
def fullDisk : Outside where
  filelibValid := true
  openDirectory := fun _ => true
  fileEntry := fun _ => some true
  addFileEntry := true
  writeMedia := true
  stale := []

/-- `fopen` for reading on that disk. -/
def reading (s : FileLib) (path : Text) : FileLib := (fopen fullDisk s path ['r']).1

theorem FileRun.reading {s : FileLib} {live : List Handle} (h : FileRun s live) (path : Text)
    (ret : Option Handle) (hret : (Files.fopen fullDisk s path ['r']).2 = ret) :
    FileRun (Files.reading s path) (live ++ ret.toList) :=
  h.fopen (Prod.ext rfl hret)

/-- A file is opened under two spellings, a third `fopen` fails, and the first handle is closed. -/
theorem files_of_run_fullDisk : ∃ s, FileRun s [1] ∧
    entries s.openFiles s.openFilesCount = [some 1] := by
  have h1 := FileRun.start.reading ['/', 'a'] (some 0) (by decide)
  have h2 := h1.reading ['/', '/', 'a'] (some 1) (by decide)
  have h3 := h2.reading ['/', 'a'] none (by decide)
  have hclose := (files_of_run h3).2.2.2 0 (by decide)
  obtain ⟨s, hs⟩ := Option.isSome_iff_exists.mp hclose
  have h4 := h3.fclose (by decide) hs
  exact ⟨s, h4, (files_of_run h4).1⟩

end AthenX.Files
