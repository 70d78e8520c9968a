import AthenX.Files.Devices
import AthenX.Files.Fopen
import AthenX.Files.Names

/-!
# Blocks that are not released

What `fopen` and `chdir` of `drivers/VFS/file.c` leave in the heap, with `fl_fopen` of
`drivers/fs/fat32/fat_filelib.c` and the devices of `drivers/virtual/devices.c`.

`fopen` does not release `path_to_open`. `fl_fopen` drops its block when the path starts with a
separator: then it releases the path itself, which `fopen` releases again. `chdir` drops the block
of a relative path. The parent of the empty string is the current directory's own block.

`fclose` and `fl_fclose` neither allocate nor release. A call that follows null is `none`.
-/

namespace AthenX.Files

open KHeap CString List Option

/-! ### The source -/

/-- A call of `fopen`, and what it finds. -/
structure Opening where
  path : List UInt8
  modifiers : List UInt8
  /-- The local buffer of `process_path`. -/
  stack : Stale
  filelibValid : Bool
  /-- The file that `_open_file` and `_create_file` find for the modifiers, or null. -/
  file : UInt32

/-- `decode_device`, with the block for the structure. -/
def Vfs.decodeDevice (fuel : ℕ) (s : Vfs) (path : List UInt8) :
    Option (Vfs × UInt32 × List UInt32) := do
  let (a, dev) ← mallocInt fuel s.alloc 20
  if dev = 0 then some ({ s with alloc := a }, 0, [])
  else if (deviceOf path).isSome then some ({ s with alloc := a }, dev, [])
  else do
    let a ← free fuel a dev
    some ({ s with alloc := a }, 0, [dev])

/-- `handle_virtual_device_fopen`, with the block. -/
def Vfs.handleVirtualDeviceFopen (fuel : ℕ) (s : Vfs) (device mods : List UInt8) :
    Option (Vfs × UInt32 × List UInt32) :=
  (s.decodeDevice fuel device).map fun (s, dev, freed) =>
    (s, if readModes.contains mods || writeModes.contains mods then dev else 0, freed)

/-- `path_to_use`, where `block` is the block for it. The block is not cleared. -/
def usePath (fuel : ℕ) (m : Memory) (path block : UInt32) (t : List UInt8) :
    Option (Memory × UInt32) :=
  if t.head? ≠ some slash then
    if block = 0 then none
    else do
      let m ← strcat fuel m block.toNat [slash]
      let t ← text m fuel path.toNat
      let m ← strcat fuel m block.toNat t
      some (m, block)
  else some (m, path)

/-- `fl_fopen`. -/
def Vfs.flFopen (fuel : ℕ) (s : Vfs) (path : UInt32) (o : Opening) :
    Option (Vfs × UInt32 × List UInt32) :=
  if path = 0 then none
  else do
    let t ← text s.mem fuel path.toNat
    let (a, block) ← mallocInt fuel s.alloc (UInt32.ofNat (t.length + 2))
    let (m, pathToUse) ← usePath fuel s.mem path block t
    if o.filelibValid = false then some ({ s with alloc := a, mem := m }, 0, [])
    else do
      let a ← free fuel a pathToUse
      some ({ s with alloc := a, mem := m }, o.file, [pathToUse])

/-- `fopen`. -/
def Vfs.fopen (fuel : ℕ) (s : Vfs) (o : Opening) : Option (Vfs × UInt32 × List UInt32) := do
  let (s, t) ← s.target fuel o.stack o.path
  match t with
  | .device => s.handleVirtualDeviceFopen fuel o.path o.modifiers
  | .inactive => some (s, -1, [])
  | .file result => do
      let (s, ret, freed) ← s.flFopen fuel result o
      let a ← free fuel s.alloc result
      some ({ s with alloc := a }, ret, freed ++ [result])

/-- The pointers that a call of `chdir` passes to `kfree`. -/
def released (fuel : ℕ) (s : Vfs) (c : Call) : Option (List UInt32) :=
  if s.useCwd then
    if c.path = dotDot then
      (moveBackOneFolder fuel s.alloc s.mem s.cwd).map fun (_, _, new) => [new]
    else if c.path.head? = some slash then some []
    else (joinPath fuel s c.path).map fun (_, _, tmp) => [tmp]
  else some []

/-! ### The property -/

/-- A call. -/
inductive VfsCall where
  /-- `fopen`, and `fclose` if there is a file. -/
  | fopen (o : Opening)
  | chdir (c : Call)

/-- Run a call. -/
def VfsCall.exec (fuel : ℕ) (s : Vfs) : VfsCall → Option (Vfs × List UInt32)
  | .fopen o => (s.fopen fuel o).map fun (s, _, freed) => (s, freed)
  | .chdir c => do
      let freed ← released fuel s c
      let (s, _) ← Files.chdir fuel s c
      some (s, freed)

/-- The call returns, the blocks are as before, and no block is released twice. -/
def Tidy (ns : List NodePtr) (s : Vfs) (c : VfsCall) : Prop :=
  ∃ s' freed, Returns (c.exec · s) (s', freed) ∧
    SameBlocks s.alloc.heap s'.alloc.heap ns ∧ freed.Nodup

/-- The current directory is the string `u`, in its block. -/
structure Settled (h₀ : Heap) (ns : List NodePtr) (as : List Allocation) (s : Vfs)
    (u : List UInt8) : Prop where
  owns : Owns h₀ ns s.alloc.heap as
  cwd : ⟨s.cwd, 260⟩ ∈ as
  holds : Holds s.mem s.cwd.toNat u
  short : u.length < 260
  len : s.cwdLen.toNat < 500000000

/-- A string whose length, with what is put around it, can be rounded up in an `int`. -/
structure IsPath (path : List UInt8) : Prop where
  chars : ∀ c ∈ path, c ≠ 0
  short : path.length < 500000000

/-- There is a block for the parent of the current directory. -/
def HasBlock (s : Vfs) (u : List UInt8) : Prop :=
  ∃ a new, Returns (mallocInt · s.alloc (UInt32.ofNat (u.length + 1))) (a, new) ∧ new ≠ 0

/-- The calls of `chdir` that are tidy: those that do nothing, and those of a path from the root or
of `".."` with a block for the parent. -/
def Balances (s : Vfs) (u : List UInt8) (c : Call) : Prop :=
  s.useCwd = false ∨ c.path.head? = some slash ∨ c.path = dotDot ∧ u ≠ [] ∧ HasBlock s u

section

variable {h₀ : Heap} {ns : List NodePtr} {base as bs : List Allocation} {s s' : Vfs}
  {a a' : Allocator} {m m' : Memory} {t u path input : List UInt8} {p r ret : UInt32} {n k : Int32}
  {fuel : ℕ} {o : Opening} {c : Call} {freed : List UInt32} {stack : Stale}

/-! ### Opening a file -/

/-- **The string that `fl_fopen` goes on with** is the text with which the list of open files has
it, where `u` is what the new block holds. -/
theorem exists_usePath {block : UInt32} (ht : Holds m p.toNat t) (hu : Holds m block.toNat u)
    (hz : block ≠ 0) (hfuel : u.length + t.length + 1 < fuel)
    (hapart : p.toNat + t.length < block.toNat ∨
      block.toNat + u.length + t.length + 1 < p.toNat) :
    ∃ m' q, usePath fuel m p block t = some (m', q) ∧
      Holds m' q.toNat (pathToUse slash u t) := by
  unfold pathToUse
  by_cases hslash : t.head? = some slash
  · rw [if_pos hslash]
    exact ⟨m, p, by rw [usePath, if_neg (not_not.mpr hslash)], ht⟩
  · rw [if_neg hslash]
    have hlen : (u ++ [slash]).length = u.length + 1 := length_append
    have hcat := hu.append (t := [slash]) (by simp [slash])
    have ht' := ht.poke (p := block.toNat + u.length) (s := [slash] ++ [0]) (by simp; omega)
    have hholds := hcat.append (t := t) ht.ne_zero
    rw [append_assoc] at hholds
    refine ⟨_, block, ?_, hholds⟩
    simp only [usePath, ne_eq, hslash, not_false_iff, if_true, hz, if_false, bind_eq_bind,
      bind_some, strcat_eq_some hu (show _ < fuel by omega),
      text_eq_some ht' (show _ < fuel by omega), strcat_eq_some hcat (show _ < fuel by omega)]

theorem holds_of_prependCwd (hempty : Holds s.mem p.toNat []) (hu : Holds s.mem s.cwd.toNat u)
    (hpath : ∀ c ∈ path, c ≠ 0) (hret : s.prependCwd fuel p path = some s') :
    s'.alloc = s.alloc ∧ Holds s'.mem p.toNat (joined u path) := by
  unfold Vfs.prependCwd at hret
  unfold joined
  split at hret
  · next habs =>
    cases hret
    rw [if_pos habs]
    exact ⟨rfl, hempty⟩
  · next hrel =>
    rw [if_neg hrel]
    obtain ⟨v, hv, hret⟩ := bind_eq_some_iff.mp hret
    obtain rfl := (holds_of_text hv).unique hu
    obtain ⟨m1, hcat1, hret⟩ := bind_eq_some_iff.mp hret
    obtain ⟨m2, hcat2, hret⟩ := bind_eq_some_iff.mp hret
    obtain ⟨m3, hcat3, hret⟩ := bind_eq_some_iff.mp hret
    cases hret
    have hone := hempty.append hu.ne_zero
    rw [← strcat_eq hcat1 hempty] at hone
    have htwo := hone.append (t := [slash]) (by simp [slash])
    rw [← strcat_eq hcat2 hone] at htwo
    have hthree := htwo.append hpath
    rw [← strcat_eq hcat3 htwo, ← append_cons] at hthree
    exact ⟨rfl, hthree⟩

theorem length_filterCwd_le (stack : Stale) : (filterCwd stack.text).length ≤ 260 := by
  have hle := length_filter_le isValidChar stack.text
  have hshort := stack.short
  simp only [filterCwd]
  split
  · exact (by decide : 1 ≤ 260)
  · omega

theorem length_passed_le (stack : Stale) (input : List UInt8) :
    (passed stack input).length ≤ input.length + 261 := by
  have hfilter := length_filterCwd_le stack
  unfold passed prefixed
  split
  · omega
  · have hdrop := (dropWhile_suffix isspace (l := filterCwd stack.text ++ slash :: input)).length_le
    rw [length_append, length_cons] at hdrop
    rw [removeLeadingWhitespace]
    omega

theorem not_isVirtualDevicePath (hrel : path.head? ≠ some slash) :
    isVirtualDevicePath path = false := by
  by_contra hdev
  have htake : path.take 5 = devPrefix := by simpa [isVirtualDevicePath] using hdev
  have hhead : (path.take 5).head? = path.head? := by simp [List.head?_take]
  rw [← hhead, htake] at hrel
  exact hrel rfl

theorem exists_file_of_target {t : Target} (hdev : isVirtualDevicePath path = false)
    (hactive : s.fsActive = true) (hret : s.target fuel stack path = some (s', t)) :
    ∃ r, t = .file r := by
  obtain ⟨⟨a, p⟩, hmalloc, hrest⟩ := bind_eq_some_iff.mp hret
  by_cases hp : p = 0
  · simp [hp] at hrest
  rw [target_eq hmalloc hp hdev hactive] at hret
  obtain ⟨s1, -, hret⟩ := bind_eq_some_iff.mp hret
  obtain ⟨⟨s2, r⟩, -, hret⟩ := bind_eq_some_iff.mp hret
  exact ⟨r, (Prod.mk.inj (some.inj hret)).2.symm⟩

/-- A path that starts with a separator is released by `fl_fopen`. -/
theorem freed_flFopen (ht : Holds s.mem r.toNat t) (hslash : t.head? = some slash)
    (hvalid : o.filelibValid = true) (hret : s.flFopen fuel r o = some (s', ret, freed)) :
    freed = [r] := by
  unfold Vfs.flFopen at hret
  split at hret
  · cases hret
  obtain ⟨v, hv, hret⟩ := bind_eq_some_iff.mp hret
  obtain rfl := (holds_of_text hv).unique ht
  obtain ⟨⟨a, block⟩, -, hret⟩ := bind_eq_some_iff.mp hret
  obtain ⟨⟨m, q⟩, huse, hret⟩ := bind_eq_some_iff.mp hret
  rw [usePath, if_neg (not_not.mpr hslash)] at huse
  cases huse
  simp only [hvalid] at hret
  obtain ⟨a', -, hret⟩ := bind_eq_some_iff.mp hret
  obtain ⟨-, hret⟩ := Prod.mk.inj (some.inj hret)
  exact (Prod.mk.inj hret).2.symm

/-- What is allocated when a file is opened: `bs`, and the argument `t`. -/
def Prepared (h₀ : Heap) (ns : List NodePtr) (bs : List Allocation) (t : List UInt8) (s : Vfs) :
    Target → Prop
  | .device => Owns h₀ ns s.alloc.heap bs
  | .inactive => Owns h₀ ns s.alloc.heap bs
  | .file r => r ≠ 0 → Holds s.mem r.toNat t ∧ ∃ k, Owns h₀ ns s.alloc.heap (bs ++ [⟨r, k⟩])

section

variable (hb : Ready h₀ ns base)

include hb

theorem ptr_ne_of_new {heap : Heap} {x y : Allocation} (howns : Owns h₀ ns heap (as ++ [y]))
    (hx : x ∈ as) : x.ptr ≠ y.ptr :=
  (apart_of_new hb howns hx).1

/-- What `malloc` allocates. -/
theorem owns_mallocInt_ofNat {n : ℕ} (ho : Owns h₀ ns a.heap as) (h1 : 1 ≤ n) (h2 : n < 2000000000)
    (hret : mallocInt fuel a (UInt32.ofNat n) = some (a', p)) :
    Owns h₀ ns a'.heap (if p = 0 then as else as ++ [⟨p, (UInt32.ofNat n).toInt32⟩]) :=
  ho.mallocInt hb (sizeFits_ofNat h1 (by omega)) ⟨fuel, hret⟩

/-- **`process_path`** allocates the block that it returns. -/
theorem owns_processPath (ho : Owns h₀ ns s.alloc.heap bs) (hp : ⟨p, n⟩ ∈ bs)
    (hin : Holds s.mem p.toNat input) (hroom : input.length < n.toInt.toNat)
    (hlen : input.length < 1000000000) (hret : s.processPath fuel stack p = some (s', r)) :
    (r = 0 ∧ Owns h₀ ns s'.alloc.heap bs) ∨
      (r ≠ 0 ∧ ∃ k, Owns h₀ ns s'.alloc.heap (bs ++ [⟨r, k⟩]) ∧
        Holds s'.mem r.toNat (passed stack input)) := by
  obtain ⟨v, hv, hret⟩ := bind_eq_some_iff.mp hret
  obtain rfl := (holds_of_text hv).unique hin
  unfold passed prefixed
  split at hret
  · next hroot =>
    obtain ⟨⟨a, q⟩, hmalloc, hret⟩ := bind_eq_some_iff.mp hret
    have ho' := owns_mallocInt_ofNat hb ho (by omega) (by omega) hmalloc
    by_cases hq : q = 0
    · simp only [hq] at hret ho'
      obtain ⟨rfl, rfl⟩ := hret
      exact .inl ⟨rfl, ho'⟩
    · simp only [hq] at hret ho'
      obtain ⟨m, hcopy, hret⟩ := bind_eq_some_iff.mp hret
      cases hret
      -- the new block is apart from the one that is copied
      have hapart := ho'.apart_bytes hb (mem_append_left _ hp)
        (mem_append_right _ mem_cons_self) (ptr_ne_of_new hb ho' hp)
      simp only [toNat_size_ofNat (show v.length + 1 < 2147483648 by omega)] at hapart
      obtain rfl := strcpy_eq hcopy hin (by omega)
      exact .inr ⟨hq, _, ho', by rw [if_pos hroot]; exact holds_poke hin.ne_zero⟩
  · next hroot =>
    split at hret
    · cases hret
      exact .inl ⟨rfl, ho⟩
    · obtain ⟨⟨a, q⟩, hmalloc, hret⟩ := bind_eq_some_iff.mp hret
      have hfilter := length_filterCwd_le stack
      have ho' := owns_mallocInt_ofNat hb ho (by omega) (by omega) hmalloc
      by_cases hq : q = 0
      · simp only [hq] at hret ho'
        obtain ⟨rfl, rfl⟩ := hret
        exact .inl ⟨rfl, ho'⟩
      · simp only [hq] at hret ho'
        obtain ⟨rfl, rfl⟩ := hret
        have hchars := ne_zero_of_mem_prefixed stack hin.ne_zero
        rw [prefixed, if_neg hroot] at hchars
        refine .inr ⟨hq, _, ho', ?_⟩
        rw [if_neg hroot, if_neg hroot]
        exact holds_poke fun c hc => hchars c (dropWhile_subset _ hc)

/-- **`fl_fopen`** releases the path, or leaves it. -/
theorem owns_flFopen (ho : Owns h₀ ns s.alloc.heap (bs ++ [⟨r, k⟩])) (ht : Holds s.mem r.toNat t)
    (hlen : t.length < 1000000000) (hret : s.flFopen fuel r o = some (s', ret, freed)) :
    (∃ cs, Owns h₀ ns s'.alloc.heap (bs ++ ⟨r, k⟩ :: cs)) ∨
      (∃ cs, Owns h₀ ns s'.alloc.heap (bs ++ cs)) ∧ Idle s'.alloc.heap ns r := by
  unfold Vfs.flFopen at hret
  split at hret
  · cases hret
  obtain ⟨v, hv, hret⟩ := bind_eq_some_iff.mp hret
  obtain rfl := (holds_of_text hv).unique ht
  obtain ⟨⟨a, block⟩, hmalloc, hret⟩ := bind_eq_some_iff.mp hret
  obtain ⟨⟨m, q⟩, huse, hret⟩ := bind_eq_some_iff.mp hret
  have ho' := owns_mallocInt_ofNat hb ho (by omega) (by omega) hmalloc
  obtain ⟨cs, ho', hcs⟩ : ∃ cs, Owns h₀ ns a.heap (bs ++ ⟨r, k⟩ :: cs) ∧
      (block ≠ 0 → ∃ j, cs = [⟨block, j⟩]) := by
    split at ho'
    · next hz => exact ⟨[], ho', fun hne => absurd hz hne⟩
    · rw [append_assoc] at ho'
      exact ⟨_, ho', fun _ => ⟨_, rfl⟩⟩
  by_cases hvalid : o.filelibValid = false
  · simp only [hvalid] at hret
    obtain ⟨rfl, -⟩ := hret
    exact .inl ⟨cs, ho'⟩
  simp only [hvalid] at hret
  obtain ⟨a', hfree, hret⟩ := bind_eq_some_iff.mp hret
  cases hret
  have hk := free_eq_some hfree
  unfold usePath at huse
  split at huse
  · -- the new block is released
    split at huse
    · cases huse
    · next hz =>
      obtain ⟨m1, -, huse⟩ := bind_eq_some_iff.mp huse
      obtain ⟨v', -, huse⟩ := bind_eq_some_iff.mp huse
      obtain ⟨m2, -, huse⟩ := bind_eq_some_iff.mp huse
      cases huse
      obtain ⟨j, rfl⟩ := hcs hz
      have ho'' : Owns h₀ ns a.heap ((bs ++ [⟨r, k⟩]) ++ ⟨block, j⟩ :: []) := by simpa using ho'
      exact .inl ⟨[], by simpa using ho''.kfree_append hb hk⟩
  · -- the path itself is released
    cases huse
    exact .inr ⟨⟨cs, ho'.kfree_append hb hk⟩,
      ho'.idle_kfree hb (mem_append_right _ mem_cons_self) hk⟩

theorem owns_decodeDevice (ho : Owns h₀ ns s.alloc.heap bs)
    (hret : s.decodeDevice fuel path = some (s', ret, freed)) :
    ∃ cs, Owns h₀ ns s'.alloc.heap (bs ++ cs) := by
  obtain ⟨⟨a, dev⟩, hmalloc, hret⟩ := bind_eq_some_iff.mp hret
  have ho' := owns_mallocInt_ofNat hb ho (by decide) (by decide) hmalloc
  by_cases hdev : dev = 0
  · simp only [hdev] at hret ho'
    obtain ⟨rfl, -⟩ := hret
    exact ⟨[], by rwa [append_nil]⟩
  simp only [hdev, if_false] at hret ho'
  split at hret
  · cases hret
    exact ⟨_, ho'⟩
  · obtain ⟨a', hfree, hret⟩ := bind_eq_some_iff.mp hret
    cases hret
    exact ⟨[], ho'.kfree_append hb (free_eq_some hfree)⟩

end

section

variable (h : Settled h₀ ns as s u) (hb : Ready h₀ ns base)

include h hb

/-- **`fopen`, up to the call**: `path_to_open` is allocated. -/
theorem Settled.prepared_target {t : Target} (hpath : IsPath path)
    (hfits : path.head? ≠ some slash → u.length ≤ 98)
    (hret : s.target fuel stack path = some (s', t)) :
    ∃ x, Prepared h₀ ns (as ++ [x]) (passed stack (joined u path)) s' t := by
  have hu := h.short
  have hshort := hpath.short
  obtain ⟨⟨a, p⟩, hmalloc, hret⟩ := bind_eq_some_iff.mp hret
  have ho := owns_mallocInt_ofNat hb h.owns (by omega) (by omega) hmalloc
  by_cases hp : p = 0
  · simp [hp] at hret
  simp only [hp, if_false] at hret ho
  refine ⟨⟨p, (UInt32.ofNat (path.length + 100)).toInt32⟩, ?_⟩
  split at hret
  · cases hret
    exact ho
  split at hret
  · cases hret
    exact ho
  · obtain ⟨s1, hprepend, hret⟩ := bind_eq_some_iff.mp hret
    obtain ⟨⟨s2, r⟩, hprocess, hret⟩ := bind_eq_some_iff.mp hret
    cases hret
    -- the current directory is not cleared with the new block
    have hroom := toNat_size_ofNat (show path.length + 100 < 2147483648 by omega)
    have hapart := ho.apart_bytes hb (mem_append_left _ h.cwd)
      (mem_append_right _ mem_cons_self) (ptr_ne_of_new hb ho h.cwd)
    have hcwd : (260 : Int32).toInt.toNat = 260 := rfl
    simp only [hcwd] at hapart
    have hkept : Holds (s.cleared a p (path.length + 100)).mem s.cwd.toNat u :=
      holds_cleared_of_apart h.holds (by omega)
    obtain ⟨halloc, hjoined⟩ := holds_of_prependCwd (holds_cleared (by omega)) hkept hpath.chars
      hprepend
    have hheap : a.heap = s1.alloc.heap := by rw [halloc]; rfl
    rw [hheap] at ho
    have hlen : (joined u path).length < path.length + 100 := length_joined_lt hfits
    rcases owns_processPath hb ho (mem_append_right _ mem_cons_self) hjoined
      (by rw [hroom]; exact hlen) (by omega) hprocess with ⟨rfl, -⟩ | ⟨-, k, ho', hholds⟩
    · exact fun hr => absurd rfl hr
    · exact fun _ => ⟨hholds, k, ho'⟩

/-- **`fopen`** leaves a block. -/
theorem Settled.not_sameBlocks_fopen (hpath : IsPath o.path)
    (hfits : o.path.head? ≠ some slash → u.length ≤ 98)
    (hret : s.fopen fuel o = some (s', ret, freed)) :
    ¬SameBlocks s.alloc.heap s'.alloc.heap ns := by
  obtain ⟨⟨s1, t⟩, htarget, hret⟩ := bind_eq_some_iff.mp hret
  obtain ⟨x, hx⟩ := h.prepared_target hb hpath hfits htarget
  suffices hown : ∃ cs, Owns h₀ ns s'.alloc.heap (as ++ x :: cs) by
    obtain ⟨cs, ho⟩ := hown
    exact h.owns.not_sameBlocks ho hb
  cases t with
  | inactive =>
    cases hret
    exact ⟨[], hx⟩
  | device =>
    obtain ⟨⟨s2, dev, freed2⟩, hdecode, heq⟩ := map_eq_some_iff.mp hret
    cases heq
    obtain ⟨cs, ho⟩ := owns_decodeDevice hb hx hdecode
    exact ⟨cs, by simpa using ho⟩
  | file r =>
    obtain ⟨⟨s2, ret2, freed2⟩, hfl, hret⟩ := bind_eq_some_iff.mp hret
    obtain ⟨a, hfree, hret⟩ := bind_eq_some_iff.mp hret
    cases hret
    have hr : r ≠ 0 := by
      rintro rfl
      cases hfl
    obtain ⟨ht, k, ho⟩ := hx hr
    have hlen := length_passed_le o.stack (joined u o.path)
    have hjoined := length_joined_le u o.path
    have hshort := hpath.short
    have hu := h.short
    have hk := free_eq_some hfree
    rcases owns_flFopen hb ho ht (by omega) hfl with ⟨cs, ho'⟩ | ⟨⟨cs, ho'⟩, hidle⟩
    · exact ⟨cs, by simpa using ho'.kfree_append hb hk⟩
    · -- the path has been released before
      rw [← kfree_of_idle (ho'.chain hb) (ho'.spaced hb) hidle hk] at ho'
      exact ⟨cs, by simpa using ho'⟩

/-- **`fopen` releases it again.** -/
theorem Settled.not_nodup_fopen (hpath : IsPath o.path)
    (hfits : o.path.head? ≠ some slash → u.length ≤ 98) (hrel : o.path.head? ≠ some slash)
    (hroot : (u ++ [slash]).head? = some slash) (hactive : s.fsActive = true)
    (hvalid : o.filelibValid = true) (hret : s.fopen fuel o = some (s', ret, freed)) :
    ¬freed.Nodup := by
  obtain ⟨⟨s1, t⟩, htarget, hret⟩ := bind_eq_some_iff.mp hret
  obtain ⟨x, hx⟩ := h.prepared_target hb hpath hfits htarget
  have hslash : (joined u o.path).head? = some slash := by
    rw [joined, if_neg hrel, append_cons, List.head?_append, hroot]
    rfl
  have hpassed : passed o.stack (joined u o.path) = joined u o.path := by
    rw [passed, if_pos (by simp [isRooted, hslash])]
  obtain ⟨r, rfl⟩ := exists_file_of_target (not_isVirtualDevicePath hrel) hactive htarget
  obtain ⟨⟨s2, ret2, freed2⟩, hfl, hret⟩ := bind_eq_some_iff.mp hret
  obtain ⟨a, -, hret⟩ := bind_eq_some_iff.mp hret
  obtain ⟨-, hret⟩ := Prod.mk.inj (some.inj hret)
  have hr : r ≠ 0 := by
    rintro rfl
    cases hfl
  obtain ⟨ht, -⟩ := hx hr
  rw [hpassed] at ht
  rw [← (Prod.mk.inj hret).2, freed_flFopen ht hslash hvalid hfl]
  simp

end

/-! ### Relative paths -/

section

variable (h : Settled h₀ ns as s u) (hb : Ready h₀ ns base) (hpath : IsPath path)
  (hne : u ≠ [] ∨ path ≠ [])

include h hb hpath hne

/-- **The path behind the current directory**: one block is dropped, unless it is empty. -/
theorem Settled.owns_joinPath (hret : joinPath fuel s path = some (a, m, r)) :
    ∃ x, (r = 0 ∧ Owns h₀ ns a.heap (as ++ [x])) ∨
      ∃ k, Owns h₀ ns a.heap (as ++ [x] ++ [⟨r, k⟩]) := by
  have hcwd := h.short
  have hshort := hpath.short
  obtain ⟨heap, tmp, size, m', v, htmp, ho, hv, htext, -, hret⟩ := joinPath_inv hb h.owns h.cwd
    h.holds hcwd h.len hpath.chars hshort hret
  have hnil : u ++ v ++ path ≠ [] := by
    rcases hne with hne | hne <;> simp [hne]
  have hbound : (u ++ v ++ path).length < 1000000000 := by
    rw [length_append, length_append]
    omega
  rcases mallocText_spec hb ho htmp htext hnil hbound hret with ⟨rfl, -, ho'⟩ | ⟨-, -, k, ho'⟩
  · exact ⟨_, .inl ⟨rfl, ho'⟩⟩
  · exact ⟨_, .inr ⟨k, ho'⟩⟩

theorem Settled.not_sameBlocks_chdirRelative {isDir : Bool} {k : ℤ}
    (hret : chdirRelative fuel s path isDir = some (s', k)) :
    ¬SameBlocks s.alloc.heap s'.alloc.heap ns := by
  obtain ⟨⟨a, m, r⟩, hjoin, hret⟩ := bind_eq_some_iff.mp hret
  obtain ⟨x, hx⟩ := h.owns_joinPath hb hpath hne hjoin
  -- either way, the last thing is to release the result
  obtain ⟨heap, hfree, heq⟩ : ∃ heap, kfree fuel a.heap r = some heap ∧ s'.alloc.heap = heap := by
    cases isDir with
    | true =>
      simp only [if_true] at hret
      split at hret
      · cases hret
      · obtain ⟨m', -, hret⟩ := bind_eq_some_iff.mp hret
        obtain ⟨heap, hfree, hret⟩ := bind_eq_some_iff.mp hret
        cases hret
        exact ⟨heap, hfree, rfl⟩
    | false =>
      obtain ⟨heap, hfree, hret⟩ := bind_eq_some_iff.mp hret
      cases hret
      exact ⟨heap, hfree, rfl⟩
  rw [heq]
  rcases hx with ⟨rfl, ho⟩ | ⟨k, ho⟩
  · exact h.owns.not_sameBlocks (ho.kfree_zero hb ⟨fuel, hfree⟩) hb
  · have ho' := ho.kfree_append hb hfree
    rw [append_nil] at ho'
    exact h.owns.not_sameBlocks ho' hb

end

/-! ### The parent -/

theorem length_parent_le (u : List UInt8) : (parent u).length ≤ u.length := by
  unfold parent
  split
  · exact Nat.le_refl _
  · exact length_take_le' _ _

theorem Settled.hasBlock_of_chdirParent {k : ℤ} (h : Settled h₀ ns as s u) (hb : Ready h₀ ns base)
    (hne : u ≠ []) (hret : chdirParent fuel s = some (s', k)) : HasBlock s u := by
  obtain ⟨⟨a, m, new⟩, hmove, hret⟩ := bind_eq_some_iff.mp hret
  obtain ⟨hmalloc, -⟩ := mallocText_inv (h.owns.ptr_ne_zero hb h.cwd) h.holds hne hmove
  refine ⟨a, new, ⟨fuel, hmalloc⟩, ?_⟩
  rintro rfl
  simp at hret

/-- **The parent** is copied from a block that is released. -/
theorem Settled.exists_chdirParent (h : Settled h₀ ns as s u) (hb : Ready h₀ ns base)
    (hne : u ≠ []) (hblock : HasBlock s u) :
    ∃ fuel s' new, chdirParent fuel s = some (s', 0) ∧
      (moveBackOneFolder fuel s.alloc s.mem s.cwd).map (fun x => [x.2.2]) = some [new] ∧
      SameBlocks s.alloc.heap s'.alloc.heap ns := by
  obtain ⟨a, new, ⟨f, hmalloc⟩, hnew⟩ := hblock
  have hshort := h.short
  obtain ⟨fuel, hf, hfuel, hns⟩ : ∃ fuel, f ≤ fuel ∧ u.length < fuel ∧ ns.length + 1 ≤ fuel :=
    ⟨max f (max (u.length + 1) (ns.length + 1)), by omega, by omega, by omega⟩
  have hcwd : s.cwd ≠ 0 := h.owns.ptr_ne_zero hb h.cwd
  have hmalloc' := mallocInt_mono hmalloc hf
  have hmove : moveBackOneFolder fuel s.alloc s.mem s.cwd = _ :=
    mallocText_eq_some parent hcwd h.holds hne hmalloc' hnew hfuel
  have ho := owns_mallocInt_ofNat hb h.owns (by omega) (by omega) hmalloc'
  rw [if_neg hnew] at ho
  have hapart := (apart_of_new hb ho h.cwd).2
  have hlen := length_parent_le u
  simp only [blockSize] at hapart
  have hnewtext : Holds (poke s.mem new.toNat (parent u ++ [0])) new.toNat (parent u) :=
    holds_poke fun c hc => h.holds.ne_zero c (mem_of_mem_parent hc)
  have hcopy : strcpy fuel _ s.cwd.toNat new.toNat = _ :=
    strcpy_eq_some hnewtext (by omega) (by omega)
  obtain ⟨heap, hfree⟩ := ho.exists_kfree hb (mem_append_right _ mem_cons_self)
  have ho' := ho.kfree_append hb hfree
  rw [append_nil] at ho'
  have hret : chdirParent fuel s = some ({ s with
      alloc := { a with heap := heap }
      mem := poke (poke s.mem new.toNat (parent u ++ [0])) s.cwd.toNat (parent u ++ [0]) }, 0) := by
    unfold chdirParent
    simp only [hmove, bind_eq_bind, bind_some, hnew, if_false, hcopy, kfree_mono hfree hns]
  exact ⟨fuel, _, new, hret, by rw [hmove]; rfl, h.owns.sameBlocks ho' hb.spaced⟩

theorem Settled.not_sameBlocks_chdirParent {k : ℤ} (h : Settled h₀ ns as s [])
    (hb : Ready h₀ ns base) (hret : chdirParent fuel s = some (s', k)) :
    ¬SameBlocks s.alloc.heap s'.alloc.heap ns := by
  obtain ⟨⟨a, m, new⟩, hmove, hret⟩ := bind_eq_some_iff.mp hret
  have hcwd : s.cwd ≠ 0 := h.owns.ptr_ne_zero hb h.cwd
  rw [moveBackOneFolder, mallocText, if_neg hcwd] at hmove
  obtain ⟨v, hv, hmove⟩ := bind_eq_some_iff.mp hmove
  obtain rfl := (holds_of_text hv).unique h.holds
  obtain ⟨rfl, rfl, rfl⟩ : s.alloc = a ∧ s.mem = m ∧ s.cwd = new := by simpa using hmove
  simp only [hcwd] at hret
  obtain ⟨m', -, hret⟩ := bind_eq_some_iff.mp hret
  obtain ⟨heap, hfree, hret⟩ := bind_eq_some_iff.mp hret
  cases hret
  intro hsame
  obtain ⟨q, hq, haddr, hidle⟩ := h.owns.idle_kfree hb h.cwd hfree
  obtain ⟨q', hq', haddr', hlive, -⟩ := h.owns.node h.cwd
  rw [(sameNodes_kfree hfree).addr q] at haddr
  obtain rfl := (h.owns.spaced hb).addr_inj hq (mem_of_mem_tail hq') (haddr.trans haddr'.symm)
  have hmark := (hsame q hq).1
  rw [hlive] at hmark
  exact absurd (hidle.symm.trans hmark) (by decide)

/-! ### The calls -/

theorem exec_chdir : (VfsCall.chdir c).exec fuel s = some (s', freed) ↔
    released fuel s c = some freed ∧ ∃ r, chdir fuel s c = some (s', r) := by
  simp only [VfsCall.exec, bind_eq_bind, bind_eq_some_iff, Option.some.injEq,
    Prod.mk.injEq, Prod.exists]
  constructor
  · rintro ⟨_, hfreed, _, r, hchdir, rfl, rfl⟩
    exact ⟨hfreed, r, hchdir⟩
  · rintro ⟨hfreed, r, hchdir⟩
    exact ⟨freed, hfreed, s', r, hchdir, rfl, rfl⟩

theorem tidy_chdir_of_alloc {r : Option ℤ} (hfreed : released 0 s c = some [])
    (hchdir : chdir 0 s c = some (s', r)) (hheap : s'.alloc = s.alloc) : Tidy ns s (.chdir c) :=
  ⟨s', [], ⟨0, exec_chdir.mpr ⟨hfreed, r, hchdir⟩⟩, fun _ _ => by rw [hheap]; exact ⟨rfl, rfl⟩,
    nodup_nil⟩

/-- **When `chdir` is tidy.** -/
theorem Settled.tidy_chdir_iff (h : Settled h₀ ns as s u) (hb : Ready h₀ ns base)
    (hpath : IsPath c.path) (hne : u ≠ [] ∨ c.path ≠ []) :
    Tidy ns s (.chdir c) ↔ Balances s u c := by
  unfold Balances
  cases huse : s.useCwd with
  | false =>
    have hfreed : released 0 s c = some [] := by simp [released, huse]
    have hchdir : chdir 0 s c = some (s, none) := by simp [chdir, huse]
    exact iff_of_true (tidy_chdir_of_alloc hfreed hchdir rfl) (.inl rfl)
  | true =>
    simp only [Bool.true_eq_false, false_or]
    by_cases hdots : c.path = dotDot
    · have hslash : c.path.head? ≠ some slash := by simp [hdots, dotDot, slash]
      rw [or_iff_right hslash, and_iff_right hdots]
      constructor
      · rintro ⟨s', freed, ⟨fuel, hret⟩, hsame, -⟩
        obtain ⟨-, r, hchdir⟩ := exec_chdir.mp hret
        simp only [chdir, huse, hdots] at hchdir
        obtain ⟨⟨s1, k⟩, hparent, heq⟩ := map_eq_some_iff.mp hchdir
        cases heq
        have hnil : u ≠ [] := by
          rintro rfl
          exact h.not_sameBlocks_chdirParent hb hparent hsame
        exact ⟨hnil, h.hasBlock_of_chdirParent hb hnil hparent⟩
      · rintro ⟨hnil, hblock⟩
        obtain ⟨fuel, s', new, hparent, hfreed, hsame⟩ := h.exists_chdirParent hb hnil hblock
        refine ⟨s', [new], ⟨fuel, exec_chdir.mpr ⟨?_, some 0, ?_⟩⟩, hsame, nodup_singleton new⟩
        · simp only [released, huse, hdots]
          exact hfreed
        · simp [chdir, huse, hdots, hparent]
    by_cases hslash : c.path.head? = some slash
    · refine iff_of_true ?_ (.inl hslash)
      have hfreed : released 0 s c = some [] := by simp [released, hdots, hslash]
      have hchdir : chdir 0 s c = some ((chdirAbsolute s c.path).1, some 0) := by
        simp [chdir, huse, hdots, hslash, chdirAbsolute]
      exact tidy_chdir_of_alloc hfreed hchdir rfl
    · refine iff_of_false ?_ (by simp [hdots, hslash])
      rintro ⟨s', freed, ⟨fuel, hret⟩, hsame, -⟩
      obtain ⟨-, r, hchdir⟩ := exec_chdir.mp hret
      simp only [chdir, huse, hdots, hslash] at hchdir
      obtain ⟨⟨s1, k⟩, hrel, heq⟩ := map_eq_some_iff.mp hchdir
      cases heq
      exact h.not_sameBlocks_chdirRelative hb hpath hne hrel hsame

end

/-- **When a call leaves the heap as it was.** No call of `fopen` does, and one with a relative path
may release a block twice. A call of `chdir` does unless both strings are empty, if and only if it
is tidy. -/
theorem tidy_iff {h₀ : Heap} {ns : List NodePtr} {base as : List Allocation} {s : Vfs}
    {u : List UInt8} (hb : Ready h₀ ns base) (h : Settled h₀ ns as s u) :
    (∀ o : Opening, IsPath o.path → (o.path.head? ≠ some slash → u.length ≤ 98) →
      ¬Tidy ns s (.fopen o) ∧ (o.path.head? ≠ some slash → (u ++ [slash]).head? = some slash →
        s.fsActive = true → o.filelibValid = true →
        ∀ r, Returns (s.fopen · o) r → ¬r.2.2.Nodup)) ∧
      ∀ c : Call, IsPath c.path → u ≠ [] ∨ c.path ≠ [] →
        (Tidy ns s (.chdir c) ↔ Balances s u c) := by
  refine ⟨fun o hpath hfits => ⟨?_, ?_⟩, fun _ hpath hne => h.tidy_chdir_iff hb hpath hne⟩
  · rintro ⟨s', freed, ⟨fuel, hret⟩, hsame, -⟩
    obtain ⟨⟨s1, ret, freed1⟩, hfopen, heq⟩ := map_eq_some_iff.mp hret
    cases heq
    exact h.not_sameBlocks_fopen hb hpath hfits hfopen hsame
  · rintro hrel hroot hactive hvalid ⟨s', ret, freed⟩ ⟨fuel, hret⟩
    exact h.not_nodup_fopen hb hpath hfits hrel hroot hactive hvalid hret

theorem settled_rootVfs : Settled freshVfs.alloc.heap rowNodes
    [⟨rootVfs.cwd, 260⟩] rootVfs [slash] := by
  have hmalloc : Returns (kmalloc · freshVfs.alloc.heap 260)
      (rootVfs.alloc.heap, rootVfs.cwd) := ⟨4, rfl⟩
  have howns := ready_freshVfs.owns.kmalloc ready_freshVfs
    (sizeFits_of_lt (by decide) (by decide)) hmalloc
  exact ⟨howns, mem_cons_self, holds_rootVfs, by decide, by decide⟩

/-- The parent of the root directory. -/
theorem tidy_dotDot : Tidy rowNodes rootVfs (.chdir ⟨dotDot, false⟩) := by
  refine ((tidy_iff ready_freshVfs settled_rootVfs).2 ⟨dotDot, false⟩ ⟨by simp [dotDot], by decide⟩
    (by simp)).mpr (.inr (.inr ⟨rfl, by simp, ?_⟩))
  exact ⟨_, 0x1800, ⟨4, rfl⟩, by decide⟩

/-- A name that is not that of a directory, and a device that there is not. -/
theorem not_sameBlocks_missing :
    (∃ s' freed, Returns ((VfsCall.chdir ⟨[97], false⟩).exec · rootVfs) (s', freed) ∧
      ¬SameBlocks rootVfs.alloc.heap s'.alloc.heap rowNodes) ∧
    ∃ s' freed, Returns ((VfsCall.fopen
        ⟨bytes "/dev/x", bytes "r", clearStack, true, 0⟩).exec · rootVfs) (s', freed) ∧
      ¬SameBlocks rootVfs.alloc.heap s'.alloc.heap rowNodes := by
  refine ⟨⟨_, _, ⟨8, rfl⟩, fun hsame => ?_⟩, _, _, ⟨8, rfl⟩, fun hsame => ?_⟩
  · exact absurd (hsame 0x130 (by decide)).1 (by decide)
  · exact absurd (hsame 0x130 (by decide)).1 (by decide)

end AthenX.Files
