import AthenX.Files.Separators

/-!
# The path of a file that is opened

`fopen` of `drivers/VFS/file.c`, up to the call of `fl_fopen`. It puts the current directory in
front of a relative path; any other path it does not copy at all, so that it goes on with the empty
string.

`process_path` copies a path that starts with a separator or a dot. In front of others it puts a
local buffer that nobody has written to, since `getcwd` has no parameters, filtered by `filter_cwd`.
-/

namespace AthenX.Files

open KHeap CString Words List Option

/-! ### The source -/

/-- `'.'`. -/
def dot : UInt8 := 46

/-- The string `"/dev/"`. -/
def devPrefix : List UInt8 := [47, 100, 101, 118, 47]

/-- `isalnum`. -/
def isalnum (c : UInt8) : Bool :=
  (97 ≤ c && c ≤ 122) || (65 ≤ c && c ≤ 90) || (48 ≤ c && c ≤ 57)

/-- `is_valid_char`. -/
def isValidChar (c : UInt8) : Bool := isalnum c || c == 95 || c == 45

/-- A local buffer that is not initialised: some string, which ends in it. -/
structure Stale where
  text : List UInt8
  chars : ∀ c ∈ text, c ≠ 0
  short : text.length < 260

/-- `filter_cwd`. -/
def filterCwd (cwd : List UInt8) : List UInt8 :=
  let filtered := cwd.filter isValidChar
  if filtered.isEmpty then [32] else filtered

/-- `remove_leading_whitespace`. -/
def removeLeadingWhitespace (path : List UInt8) : List UInt8 := path.dropWhile isspace

/-- Does the path start with a separator or a dot? -/
def isRooted (path : List UInt8) : Bool := path.head? == some slash || path.head? == some dot

/-- `process_path`. `getcwd` returns null only if it returns `_cwd`. -/
def Vfs.processPath (fuel : ℕ) (s : Vfs) (cwd : Stale) (inputString : UInt32) :
    Option (Vfs × UInt32) := do
  let input ← text s.mem fuel inputString.toNat
  if isRooted input then do
    let (a, result) ← mallocInt fuel s.alloc (UInt32.ofNat (input.length + 1))
    if result = 0 then some ({ s with alloc := a }, 0)
    else do
      let m ← strcpy fuel s.mem result.toNat inputString.toNat
      some ({ s with alloc := a, mem := m }, result)
  else if s.fsActive ∧ s.useCwd ∧ s.cwd = 0 then some (s, 0)
  else do
    let cwd := filterCwd cwd.text
    let (a, result) ← mallocInt fuel s.alloc (UInt32.ofNat (cwd.length + input.length + 2))
    if result = 0 then some ({ s with alloc := a }, 0)
    else
      let full := cwd ++ slash :: input
      let m := poke s.mem result.toNat (full ++ [0])
      let m := poke m result.toNat (removeLeadingWhitespace full ++ [0])
      some ({ s with alloc := a, mem := m }, result)

/-- `is_virtual_device_path`. -/
def isVirtualDevicePath (path : List UInt8) : Bool := path.take 5 == devPrefix

/-- The current directory and the path, in `path_to_open`. -/
def Vfs.prependCwd (fuel : ℕ) (s : Vfs) (pathToOpen : UInt32) (path : List UInt8) :
    Option Vfs :=
  if path.head? = some slash then some s
  else do
    let cwd ← text s.mem fuel s.cwd.toNat
    let m ← strcat fuel s.mem pathToOpen.toNat cwd
    let m ← strcat fuel m pathToOpen.toNat [slash]
    let m ← strcat fuel m pathToOpen.toNat path
    some { s with mem := m }

/-- Where `fopen` goes with a path. -/
inductive Target where
  /-- `handle_virtual_device_fopen`. -/
  | device
  /-- There is no file system. -/
  | inactive
  /-- `fl_fopen`, with this argument. -/
  | file (result : UInt32)
  deriving DecidableEq, Repr

/-- The state after `memset`, with the new block. -/
def Vfs.cleared (s : Vfs) (a : Allocator) (p : UInt32) (n : ℕ) : Vfs :=
  { s with alloc := a, mem := poke s.mem p.toNat (List.replicate n 0) }

/-- `fopen`, up to the call of another function that opens the file. -/
def Vfs.target (fuel : ℕ) (s : Vfs) (cwd : Stale) (path : List UInt8) :
    Option (Vfs × Target) := do
  let (a, pathToOpen) ← mallocInt fuel s.alloc (UInt32.ofNat (path.length + 100))
  -- `memset` writes to the block before it is compared with null
  if pathToOpen = 0 then none
  else
    let s := s.cleared a pathToOpen (path.length + 100)
    if isVirtualDevicePath path then some (s, .device)
    else if s.fsActive = false then some (s, .inactive)
    else do
      let s ← s.prependCwd fuel pathToOpen path
      let (s, result) ← s.processPath fuel cwd pathToOpen
      some (s, .file result)

/-! ### The property -/

/-- Is the character a separator of components? -/
def isSlash (c : UInt8) : Bool := c == slash

/-- The components of the file that is asked for. -/
def requested (cwd path : List UInt8) : List (List UInt8) :=
  if path.head? = some slash then words isSlash path
  else words isSlash cwd ++ words isSlash path

/-- What is in `path_to_open`. -/
def joined (cwd path : List UInt8) : List UInt8 :=
  if path.head? = some slash then [] else cwd ++ slash :: path

/-- What `process_path` allocates a block for. -/
def prefixed (cwd : Stale) (input : List UInt8) : List UInt8 :=
  if isRooted input then input else filterCwd cwd.text ++ slash :: input

/-- What `process_path` returns. -/
def passed (cwd : Stale) (input : List UInt8) : List UInt8 :=
  if isRooted input then input else removeLeadingWhitespace (prefixed cwd input)

/-- What is left of the local buffer: one component, or none. -/
def leftover (cwd : Stale) : List (List UInt8) := words isSlash (cwd.text.filter isValidChar)

/-- The current directory starts with a separator or a dot, or is empty. -/
def Rooted (cwd : List UInt8) : Prop := cwd = [] ∨ isRooted cwd = true

/-- Both blocks are allocated, apart from each other and from the current directory. -/
structure Grants (s : Vfs) (stack : Stale) (cwd path : List UInt8) (a₁ : Allocator) (p : UInt32)
    (a₂ : Allocator) (r : UInt32) : Prop where
  first : Returns (mallocInt · s.alloc (UInt32.ofNat (path.length + 100))) (a₁, p)
  first_ne : p ≠ 0
  cwd_apart : s.cwd.toNat + cwd.length < p.toNat ∨ p.toNat + (path.length + 100) ≤ s.cwd.toNat
  second : Returns (fun fuel =>
    mallocInt fuel a₁ (UInt32.ofNat ((prefixed stack (joined cwd path)).length + 1))) (a₂, r)
  second_ne : r ≠ 0
  apart : p.toNat + (path.length + 100) ≤ r.toNat ∨
    r.toNat + (prefixed stack (joined cwd path)).length < p.toNat

section

variable {c : UInt8} {u path input : List UInt8} {stack : Stale} {s : Vfs} {a a₁ a₂ : Allocator}
  {p r : UInt32} {fuel : ℕ}

/-! ### The strings -/

@[simp] theorem isSlash_slash : isSlash slash = true := rfl

theorem ne_zero_of_mem_filterCwd (h : c ∈ filterCwd u) : c ≠ 0 := by
  rintro rfl
  simp only [filterCwd] at h
  split at h
  · simp at h
  · exact absurd (mem_filter.mp h).2 (by decide)

theorem words_trimmed (stack : Stale) (input : List UInt8) :
    words isSlash (removeLeadingWhitespace (filterCwd stack.text ++ slash :: input)) =
      leftover stack ++ words isSlash input := by
  unfold removeLeadingWhitespace filterCwd leftover
  cases hf : stack.text.filter isValidChar with
  | nil =>
    -- a blank, which is removed
    exact words_cons isSlash_slash
  | cons c f =>
    have hmem : c ∈ stack.text.filter isValidChar := hf ▸ mem_cons_self
    have hc : isspace c = false :=
      isspace_eq_false (mem_filter.mp hmem).2 (by simp [isValidChar, isalnum])
    simp only [isEmpty_cons, Bool.false_eq_true, if_false, cons_append, dropWhile_cons, hc]
    exact words_append_cons (s := c :: f) isSlash_slash

/-- **The components of the string that is passed.** -/
theorem words_passed (stack : Stale) (input : List UInt8) :
    words isSlash (passed stack input) =
      if isRooted input then words isSlash input else leftover stack ++ words isSlash input := by
  unfold passed prefixed
  split
  · rfl
  · exact words_trimmed stack input

theorem isRooted_append_iff : isRooted (u ++ slash :: path) = true ↔ Rooted u := by
  cases u with
  | nil => simp [Rooted, isRooted]
  | cons c u => simp [Rooted, isRooted]

theorem words_passed_joined (stack : Stale) (u path : List UInt8) :
    words isSlash (passed stack (joined u path)) = requested u path ↔
      if path.head? = some slash then leftover stack = words isSlash path
      else Rooted u ∨ leftover stack = [] := by
  rw [words_passed]
  unfold joined requested
  split
  · rw [if_neg (by simp [isRooted]), words_nil, append_nil]
  · rw [words_append_cons isSlash_slash]
    by_cases hu : Rooted u
    · rw [if_pos (isRooted_append_iff.mpr hu)]
      exact iff_of_true rfl (.inl hu)
    · rw [if_neg (mt isRooted_append_iff.mp hu), append_left_eq_self, or_iff_right hu]

theorem ne_zero_of_mem_prefixed (stack : Stale) (hin : ∀ c ∈ input, c ≠ 0) :
    ∀ c ∈ prefixed stack input, c ≠ 0 := by
  unfold prefixed
  split
  · exact hin
  · refine forall_mem_append.mpr ⟨fun c hc => ne_zero_of_mem_filterCwd hc, ?_⟩
    exact forall_mem_cons.mpr ⟨by decide, hin⟩

theorem length_le_prefixed (stack : Stale) (input : List UInt8) :
    input.length ≤ (prefixed stack input).length := by
  unfold prefixed
  split
  · exact Nat.le_refl _
  · rw [length_append, length_cons]
    omega

theorem length_joined_le (u path : List UInt8) :
    (joined u path).length ≤ u.length + path.length + 1 := by
  unfold joined
  split
  · exact Nat.zero_le _
  · rw [length_append, length_cons]
    omega

theorem length_joined_lt (hfits : path.head? ≠ some slash → u.length ≤ 98) :
    (joined u path).length < path.length + 100 := by
  unfold joined
  split
  · exact Nat.succ_pos _
  · next hrel =>
    have := hfits hrel
    rw [length_append, length_cons]
    omega

/-! ### The calls -/

/-- **`process_path`** returns the string in a new block. -/
theorem processPath_eq_some (hin : Holds s.mem p.toNat input) (hfuel : input.length < fuel)
    (hmalloc : mallocInt fuel s.alloc (UInt32.ofNat ((prefixed stack input).length + 1)) =
      some (a, r)) (hr : r ≠ 0) (hcwd : s.cwd ≠ 0)
    (hapart : p.toNat + input.length < r.toNat ∨ r.toNat + input.length < p.toNat) :
    ∃ m, s.processPath fuel stack p = some ({ s with alloc := a, mem := m }, r) ∧
      Holds m r.toNat (passed stack input) := by
  unfold Vfs.processPath passed
  unfold prefixed at hmalloc ⊢
  rw [text_eq_some hin hfuel]
  simp only [bind_eq_bind, bind_some]
  split
  · next hroot =>
    rw [if_pos hroot] at hmalloc
    simp only [hmalloc, bind_some, hr, strcpy_eq_some hin hfuel hapart]
    exact ⟨_, rfl, holds_poke hin.ne_zero⟩
  · next hroot =>
    have hsize : (filterCwd stack.text ++ slash :: input).length + 1 =
        (filterCwd stack.text).length + input.length + 2 := by
      rw [length_append, length_cons]
      omega
    have hchars := ne_zero_of_mem_prefixed stack hin.ne_zero
    unfold prefixed at hchars
    rw [if_neg hroot] at hmalloc hchars
    rw [hsize] at hmalloc
    simp only [hcwd, and_false, hmalloc, bind_some, hr]
    exact ⟨_, rfl, holds_poke fun c hc => hchars c (dropWhile_subset _ hc)⟩

theorem holds_cleared {n : ℕ} (hn : 0 < n) : Holds (s.cleared a p n).mem p.toNat [] := by
  obtain ⟨n, rfl⟩ := Nat.exists_eq_succ_of_ne_zero (Nat.pos_iff_ne_zero.mp hn)
  show poke s.mem p.toNat (List.replicate (n + 1) 0) p.toNat = 0
  rw [replicate_succ, poke, poke_of_lt (Nat.lt_succ_self _), Function.update_self]

theorem holds_cleared_of_apart {n q : ℕ} (hu : Holds s.mem q u)
    (hapart : q + u.length < p.toNat ∨ p.toNat + n ≤ q) : Holds (s.cleared a p n).mem q u :=
  hu.poke (by rwa [length_replicate])

/-- The current directory and the path are in `path_to_open`. -/
theorem prependCwd_eq_some (hempty : Holds s.mem p.toNat []) (hu : Holds s.mem s.cwd.toNat u)
    (hpath : ∀ c ∈ path, c ≠ 0) (hfuel : u.length + 1 < fuel) :
    ∃ m, s.prependCwd fuel p path = some { s with mem := m } ∧
      Holds m p.toNat (joined u path) := by
  unfold Vfs.prependCwd joined
  split
  · exact ⟨s.mem, rfl, hempty⟩
  · have hone := hempty.append hu.ne_zero
    have htwo := hone.append (t := [slash]) (by simp [slash])
    have hthree := htwo.append hpath
    have hlen : (u ++ [slash]).length < fuel := by
      rw [length_append]
      exact hfuel
    rw [text_eq_some hu (by omega)]
    simp only [bind_eq_bind, bind_some,
      strcat_eq_some hempty (show ([] : List UInt8).length < fuel by simp; omega),
      strcat_eq_some hone (show u.length < fuel by omega), strcat_eq_some htwo hlen]
    refine ⟨_, rfl, ?_⟩
    rw [← append_cons] at hthree
    exact hthree

theorem target_eq
    (hmalloc : mallocInt fuel s.alloc (UInt32.ofNat (path.length + 100)) = some (a, p))
    (hp : p ≠ 0) (hdev : isVirtualDevicePath path = false) (hactive : s.fsActive = true) :
    s.target fuel stack path =
      ((s.cleared a p (path.length + 100)).prependCwd fuel p path).bind fun s =>
        (s.processPath fuel stack p).bind fun r => some (r.1, .file r.2) := by
  have hactive' : (s.cleared a p (path.length + 100)).fsActive = true := hactive
  unfold Vfs.target
  simp only [hmalloc, bind_eq_bind, bind_some, hp, if_false, hdev,
    Bool.false_eq_true, hactive', Bool.true_eq_false]

/-- **The call returns**, with the string in a new block. -/
theorem Grants.returns_target (hg : Grants s stack u path a₁ p a₂ r) (hactive : s.fsActive = true)
    (hcwd : s.cwd ≠ 0) (hu : Holds s.mem s.cwd.toNat u) (hpath : ∀ c ∈ path, c ≠ 0)
    (hdev : isVirtualDevicePath path = false)
    (hfits : path.head? ≠ some slash → u.length ≤ 98) :
    ∃ m, Returns (s.target · stack path) ({ s with alloc := a₂, mem := m }, .file r) ∧
      Holds m r.toNat (passed stack (joined u path)) := by
  obtain ⟨f1, hfirst⟩ := hg.first
  obtain ⟨f2, hsecond⟩ := hg.second
  obtain ⟨fuel, hle1, hle2, hfuel⟩ :
      ∃ fuel, f1 ≤ fuel ∧ f2 ≤ fuel ∧ u.length + path.length + 2 ≤ fuel :=
    ⟨max (max f1 f2) (u.length + path.length + 2), by omega, by omega, by omega⟩
  have hjoin := length_joined_le u path
  have hbuffer := length_joined_lt hfits
  have hprefix := length_le_prefixed stack (joined u path)
  have hapart := hg.apart
  have hempty : Holds (s.cleared a₁ p (path.length + 100)).mem p.toNat [] :=
    holds_cleared (by omega)
  have hcwd1 : Holds (s.cleared a₁ p (path.length + 100)).mem s.cwd.toNat u :=
    holds_cleared_of_apart hu hg.cwd_apart
  obtain ⟨m2, hprepend, hjoined⟩ := prependCwd_eq_some hempty hcwd1 hpath
    (show u.length + 1 < fuel by omega)
  obtain ⟨m3, hprocess, hholds⟩ := processPath_eq_some
    (s := { s.cleared a₁ p (path.length + 100) with mem := m2 }) hjoined
    (show (joined u path).length < fuel by omega) (mallocInt_mono hsecond hle2) hg.second_ne hcwd
    (by omega)
  refine ⟨m3, ⟨fuel, ?_⟩, hholds⟩
  show s.target fuel stack path = _
  rw [target_eq (mallocInt_mono hfirst hle1) hg.first_ne hdev hactive, hprepend, bind_some,
    hprocess]
  rfl

end

/-- **What `fopen` passes to `fl_fopen`** denotes the file that is asked for if and only if a path
without a separator in front is put behind a directory from the root or the dot, or none, or nothing
is left of the local buffer; or a path from the root happens to be left there. -/
theorem denotes_iff {s : Vfs} {stack : Stale} {u path : List UInt8} {a₁ a₂ : Allocator}
    {p r : UInt32} (hactive : s.fsActive = true) (hcwd : s.cwd ≠ 0)
    (hu : Holds s.mem s.cwd.toNat u) (hpath : ∀ c ∈ path, c ≠ 0)
    (hdev : isVirtualDevicePath path = false)
    (hfits : path.head? ≠ some slash → u.length ≤ 98) (hg : Grants s stack u path a₁ p a₂ r) :
    ∃ s' t, Returns (s.target · stack path) (s', .file r) ∧ Holds s'.mem r.toNat t ∧
      (words isSlash t = requested u path ↔
        if path.head? = some slash then leftover stack = words isSlash path
        else Rooted u ∨ leftover stack = []) := by
  obtain ⟨m, hreturns, hholds⟩ := hg.returns_target hactive hcwd hu hpath hdev hfits
  exact ⟨_, _, hreturns, hholds, words_passed_joined stack u path⟩

/-- A local buffer with a zero in front. -/
def clearStack : Stale := ⟨[], by simp, by decide⟩

theorem holds_rootVfs : Holds rootVfs.mem rootVfs.cwd.toNat [slash] := ⟨rfl, by decide, rfl⟩

theorem grants_relative : Grants rootVfs clearStack [slash] [97]
    (runCalls rootVfs.alloc [.malloc 101]) 0x1800
    (runCalls rootVfs.alloc [.malloc 101, .malloc 4]) 0x1C00 :=
  ⟨⟨4, rfl⟩, by decide, by decide, ⟨4, rfl⟩, by decide, by decide⟩

theorem grants_absolute : Grants rootVfs clearStack [slash] [slash, 97]
    (runCalls rootVfs.alloc [.malloc 102]) 0x1800
    (runCalls rootVfs.alloc [.malloc 102, .malloc 3]) 0x1C00 :=
  ⟨⟨4, rfl⟩, by decide, by decide, ⟨4, rfl⟩, by decide, by decide⟩

/-- The file `a` in the root directory. -/
theorem denotes_relative : ∃ s' t, Returns (rootVfs.target · clearStack [97]) (s', .file 0x1C00) ∧
      Holds s'.mem 0x1C00 t ∧ words isSlash t = requested [slash] [97] := by
  have hchars : ∀ c ∈ [(97 : UInt8)], c ≠ 0 := by simp
  obtain ⟨s', t, hreturns, hholds, hiff⟩ := denotes_iff rfl (by decide) holds_rootVfs hchars
    (by decide) (by decide) grants_relative
  exact ⟨s', t, hreturns, hholds, hiff.mpr (.inl (.inr rfl))⟩

/-- The file `/a`. The string that is passed is `/`. -/
theorem not_denotes_absolute :
    ∃ s' t, Returns (rootVfs.target · clearStack [slash, 97]) (s', .file 0x1C00) ∧
      Holds s'.mem 0x1C00 t ∧ words isSlash t ≠ requested [slash] [slash, 97] := by
  obtain ⟨m, hreturns, hholds⟩ := grants_absolute.returns_target rfl (by decide) holds_rootVfs
    (by simp [slash]) (by decide) (by decide)
  refine ⟨_, _, hreturns, hholds, fun heq => ?_⟩
  have hleft := (words_passed_joined clearStack [slash] [slash, 97]).mp heq
  have hword : words isSlash [slash, 97] = [[97]] := by
    rw [words_cons isSlash_slash, words_eq_singleton (by simp [isSlash, slash]) (by simp)]
  simp [leftover, clearStack, hword] at hleft

end AthenX.Files
