import AthenX.KHeap.Blocks
import AthenX.Lib.CString

/-!
# The current directory

`init_fs` and `chdir` of `drivers/VFS/file.c`, with `remove_double_path_separators`, and
`move_back_one_folder` of `kernel/cmd/command.c`. The current directory is a string in a block,
`_cwd`, with its length in `_cwd_len`.

Two branches of `chdir` leave `_cwd_len` as it is, and the third one adds two more than the string
can grow by. The parent of `/` is the empty string, whose parent is the block `_cwd` itself, which
`chdir` then frees.

A call that writes through null, or does not return, is `none`. The argument is not in the heap.
-/

namespace AthenX.Files

open KHeap CString List Option

/-! ### The functions -/

/-- `'/'`. -/
def slash : UInt8 := 47

/-- `'\\'`. -/
def backslash : UInt8 := 92

/-- The string `".."`. -/
def dotDot : List UInt8 := [46, 46]

/-- The variables of `file.c`, the allocator and the memory. -/
structure Vfs where
  alloc : Allocator
  mem : Memory
  fsActive : Bool
  useCwd : Bool
  /-- `_cwd`. -/
  cwd : UInt32
  /-- `_cwd_len`. -/
  cwdLen : UInt32

/-- The same, with another heap. -/
def Vfs.withHeap (s : Vfs) (h : Heap) : Vfs := { s with alloc := { s.alloc with heap := h } }

/-- `init_fs`. `sizeof(FATFS_MAX_LONG_FILENAME)` is the size of an `int`. -/
def initFs (fuel : ℕ) (s : Vfs) : Option (Vfs × ℤ) :=
  if s.fsActive = false then some (s, -1)
  else
    (kmalloc fuel s.alloc.heap 260).map fun (h, p) =>
      let s := { s.withHeap h with cwd := p }
      if p = 0 then ({ s with useCwd := false }, -1)
      else
        let m := poke s.mem p.toNat [0, 0, 0, 0]
        ({ s with mem := poke m p.toNat [slash], cwdLen := 1, useCwd := true }, 1)

/-- Is the character a separator? -/
def isSeparator (c : UInt8) : Bool := c == slash || c == backslash

/-- The loop of `remove_double_path_separators`. -/
def squeeze : List UInt8 → List UInt8
  | [] => []
  | c :: s => if isSeparator c && s.head?.any isSeparator then squeeze s else c :: squeeze s

/-- The loop of `strrchr`, from index `i` on. -/
def strrchr (ch : UInt8) : List UInt8 → ℕ → Option ℕ → Option ℕ
  | [], _, last => last
  | c :: s, i, last => strrchr ch s (i + 1) (if c = ch then some i else last)

/-- The part of a path in front of its last separator, or all of it. -/
def parent (s : List UInt8) : List UInt8 :=
  match (strrchr slash s 0 none).or (strrchr backslash s 0 none) with
  | none => s
  | some i => s.take i

/-- What the two functions on paths have in common: the string, changed by `f`, in a new block. -/
def mallocText (f : List UInt8 → List UInt8) (fuel : ℕ) (a : Allocator) (m : Memory)
    (path : UInt32) : Option (Allocator × Memory × UInt32) :=
  if path = 0 then some (a, m, path)
  else do
    let s ← text m fuel path.toNat
    if s.isEmpty then some (a, m, path)
    else do
      let (a, result) ← mallocInt fuel a (UInt32.ofNat (s.length + 1))
      if result = 0 then some (a, m, 0)
      else some (a, poke m result.toNat (f s ++ [0]), result)

/-- `remove_double_path_separators`. -/
def removeDoublePathSeparators := mallocText squeeze

/-- `move_back_one_folder`. -/
def moveBackOneFolder := mallocText parent

/-- The branch of `chdir` for `".."`. -/
def chdirParent (fuel : ℕ) (s : Vfs) : Option (Vfs × ℤ) := do
  let (a, m, new) ← moveBackOneFolder fuel s.alloc s.mem s.cwd
  if new = 0 then none
  else do
    let m ← strcpy fuel m s.cwd.toNat new.toNat
    let h ← kfree fuel a.heap new
    some ({ s with alloc := { a with heap := h }, mem := m }, 0)

/-- The branch for a path that starts with a separator. -/
def chdirAbsolute (s : Vfs) (path : List UInt8) : Vfs × ℤ :=
  ({ s with mem := poke s.mem s.cwd.toNat (path ++ [0]) }, 0)

/-- A separator behind the copy in `tmp`, unless there is one at `_cwd_len`. -/
def separate (fuel : ℕ) (m : Memory) (tmp cwdLen : UInt32) : Option Memory :=
  if m (tmp.toNat + cwdLen.toNat) ≠ slash then strcat fuel m tmp.toNat [slash] else some m

/-- The path behind the current directory, in `tmp`. What `tmp` was before is not freed. -/
def joinPath (fuel : ℕ) (s : Vfs) (path : List UInt8) : Option (Allocator × Memory × UInt32) := do
  let (h, tmp) ← kmalloc fuel s.alloc.heap (s.cwdLen + UInt32.ofNat path.length + 3)
  if tmp = 0 then none
  else do
    let m ← strcpy fuel s.mem tmp.toNat s.cwd.toNat
    let m ← separate fuel m tmp s.cwdLen
    let m ← strcat fuel m tmp.toNat path
    removeDoublePathSeparators fuel { s.alloc with heap := h } m tmp

/-- The branch for the other paths. `isDir` is the answer of `fl_is_dir`. -/
def chdirRelative (fuel : ℕ) (s : Vfs) (path : List UInt8) (isDir : Bool) : Option (Vfs × ℤ) := do
  let (a, m, tmp) ← joinPath fuel s path
  if isDir then
    if tmp = 0 then none
    else do
      let m ← strcpy fuel m s.cwd.toNat tmp.toNat
      let h ← kfree fuel a.heap tmp
      some ({ s with
        alloc := { a with heap := h }
        mem := m
        cwdLen := s.cwdLen + 1 + UInt32.ofNat path.length + 2 }, 0)
  else do
    let h ← kfree fuel a.heap tmp
    some ({ s with alloc := { a with heap := h }, mem := m }, -1)

/-- A call of `chdir`: the path, and what `fl_is_dir` answers if it is asked. -/
structure Call where
  path : List UInt8
  isDir : Bool
  deriving DecidableEq, Repr

/-- `chdir`. Without `use_cwd` it changes only a local buffer, and returns no value. -/
def chdir (fuel : ℕ) (s : Vfs) (c : Call) : Option (Vfs × Option ℤ) :=
  if s.useCwd then
    if c.path = dotDot then (chdirParent fuel s).map fun (s, r) => (s, some r)
    else if c.path.head? = some slash then
      let (s, r) := chdirAbsolute s c.path
      some (s, some r)
    else (chdirRelative fuel s c.path c.isDir).map fun (s, r) => (s, some r)
  else some (s, none)

/-! ### Runs -/

/-- A path of fewer than 100 characters. -/
structure Call.Proper (c : Call) : Prop where
  text : ∀ x ∈ c.path, x ≠ 0
  short : c.path.length < 100

/-- The calls that return, with at most 2560 entries in the list of `malloc`, and their states. -/
inductive CwdRun (s₀ : Vfs) : Vfs → List (Vfs × Call) → Prop
  | start : CwdRun s₀ s₀ []
  | call {s s' : Vfs} {steps : List (Vfs × Call)} {c : Call} {r : Option ℤ} :
      CwdRun s₀ s steps → c.Proper → Returns (chdir · s c) (s', r) →
      s'.alloc.count ≤ maxPtrs → CwdRun s₀ s' (steps ++ [(s, c)])

/-- `_cwd` is an allocated block with a string from the root, whose length is `_cwd_len`. -/
def CwdValid (ns : List NodePtr) (s : Vfs) : Prop :=
  Live s.alloc.heap ns s.cwd ∧
    ∃ t, Holds s.mem s.cwd.toNat (slash :: t) ∧ s.cwdLen.toNat = (slash :: t).length

/-- The calls that keep it valid: a path from the root has the old length, others are no
directories. -/
def Harmless (s : Vfs) (c : Call) : Prop :=
  if c.path.head? = some slash then c.path.length = s.cwdLen.toNat
  else c.path ≠ dotDot ∧ c.isDir = false

/-! ### Paths -/

theorem strrchr_lt (ch : UInt8) : ∀ (s : List UInt8) (i : ℕ) (last : Option ℕ) {j : ℕ},
    (∀ l ∈ last, l < i) → strrchr ch s i last = some j → j < i + s.length := by
  intro s
  induction s with
  | nil =>
    intro i last j hlast h
    exact hlast j h
  | cons c s ih =>
    intro i last j hlast h
    have hstep : ∀ l ∈ (if c = ch then some i else last), l < i + 1 := by
      intro l hl
      split at hl
      · cases hl
        omega
      · have := hlast l hl
        omega
    have hlt := ih (i + 1) _ hstep h
    rw [length_cons]
    omega

theorem isSome_strrchr (ch : UInt8) : ∀ (s : List UInt8) (i : ℕ) (last : Option ℕ),
    last.isSome = true → (strrchr ch s i last).isSome = true := by
  intro s
  induction s with
  | nil =>
    intro i last h
    exact h
  | cons c s ih =>
    intro i last h
    refine ih (i + 1) _ ?_
    split
    · rfl
    · exact h

theorem length_parent_lt (t : List UInt8) : (parent (slash :: t)).length < (slash :: t).length := by
  have hsome : (strrchr slash (slash :: t) 0 none).isSome = true :=
    isSome_strrchr slash t 1 (some 0) rfl
  obtain ⟨i, hi⟩ := isSome_iff_exists.mp hsome
  have hlt := strrchr_lt slash (slash :: t) 0 none (by simp) hi
  simp only [parent, hi, some_or, length_take]
  omega

theorem mem_of_mem_parent {s : List UInt8} {c : UInt8} (h : c ∈ parent s) : c ∈ s := by
  unfold parent at h
  split at h
  · exact h
  · exact mem_of_mem_take h

theorem length_squeeze_le (s : List UInt8) : (squeeze s).length ≤ s.length := by
  induction s with
  | nil => exact Nat.le_refl 0
  | cons c s ih =>
    unfold squeeze
    split
    · exact Nat.le_succ_of_le ih
    · exact Nat.succ_le_succ ih

theorem mem_of_mem_squeeze {s : List UInt8} {x : UInt8} (h : x ∈ squeeze s) : x ∈ s := by
  induction s with
  | nil => exact h
  | cons c s ih =>
    unfold squeeze at h
    split at h
    · exact mem_cons_of_mem c (ih h)
    · rcases mem_cons.mp h with rfl | h
      · exact mem_cons_self
      · exact mem_cons_of_mem c (ih h)

/-! ### The invariant -/

/-- The current directory is the path `slash :: t` of fewer than 100 characters. -/
structure Homed (h₀ : Heap) (ns : List NodePtr) (s : Vfs) (t : List UInt8) : Prop where
  owns : ∃ as, Owns h₀ ns s.alloc.heap as ∧ ⟨s.cwd, 260⟩ ∈ as
  holds : Holds s.mem s.cwd.toNat (slash :: t)
  length : s.cwdLen.toNat = (slash :: t).length
  short : (slash :: t).length < 100
  useCwd : s.useCwd = true

section

variable {h₀ : Heap} {ns : List NodePtr} {base as : List Allocation} {s s' : Vfs}
  {a a' : Allocator} {m m' : Memory} {t u path : List UInt8} {p r cwd : UInt32} {k : ℤ} {fuel : ℕ}

theorem Homed.valid (h : Homed h₀ ns s t) : CwdValid ns s := by
  obtain ⟨as, howns, hmem⟩ := h.owns
  obtain ⟨q, hq, hnode⟩ := howns.node hmem
  exact ⟨⟨q, List.mem_of_mem_tail hq, hnode⟩, t, h.holds, h.length⟩

theorem CwdValid.length_eq (h : CwdValid ns s) (hu : Holds s.mem s.cwd.toNat u) :
    s.cwdLen.toNat = u.length := by
  obtain ⟨-, t, ht, hlen⟩ := h
  rw [hlen, ht.unique hu]

theorem sizeFits_of_lt {h : Heap} {size : UInt32} (h1 : 1 ≤ size.toNat) (h2 : size.toNat < 1000) :
    SizeFits h size := .inl ⟨h1, by omega⟩

theorem mallocText_inv {f : List UInt8 → List UInt8} (hp : p ≠ 0) (hu : Holds m p.toNat u)
    (hne : u ≠ []) (h : mallocText f fuel a m p = some (a', m', r)) :
    mallocInt fuel a (UInt32.ofNat (u.length + 1)) = some (a', r) ∧
      m' = if r = 0 then m else poke m r.toNat (f u ++ [0]) := by
  rw [mallocText, if_neg hp] at h
  obtain ⟨v, hv, h⟩ := bind_eq_some_iff.mp h
  obtain rfl := (holds_of_text hv).unique hu
  have hempty : ¬(v.isEmpty = true) := by simpa using hne
  rw [if_neg hempty] at h
  obtain ⟨⟨a1, q⟩, hmalloc, h⟩ := bind_eq_some_iff.mp h
  by_cases hq : q = 0
  · simp only [hq] at h
    obtain ⟨rfl, rfl, rfl⟩ := h
    exact ⟨hq ▸ hmalloc, (if_pos rfl).symm⟩
  · simp only [hq] at h
    obtain ⟨rfl, rfl, rfl⟩ := h
    exact ⟨hmalloc, (if_neg hq).symm⟩

/-- **The two functions on paths**: a new block with the string in it, or null. -/
theorem mallocText_spec {f : List UInt8 → List UInt8} (hb : Ready h₀ ns base)
    (howns : Owns h₀ ns a.heap as) (hp : p ≠ 0) (hu : Holds m p.toNat u) (hne : u ≠ [])
    (hlen : u.length < 1000000000) (h : mallocText f fuel a m p = some (a', m', r)) :
    (r = 0 ∧ m' = m ∧ Owns h₀ ns a'.heap as) ∨
      (r ≠ 0 ∧ m' = poke m r.toNat (f u ++ [0]) ∧
        ∃ size, Owns h₀ ns a'.heap (as ++ [⟨r, size⟩])) := by
  obtain ⟨hmalloc, hm'⟩ := mallocText_inv hp hu hne h
  have howns' := howns.mallocInt hb (sizeFits_ofNat (by omega) (by omega)) ⟨fuel, hmalloc⟩
  by_cases hr : r = 0
  · rw [if_pos hr] at hm' howns'
    exact .inl ⟨hr, hm', howns'⟩
  · rw [if_neg hr] at hm' howns'
    exact .inr ⟨hr, hm', _, howns'⟩

theorem apart_of_new {heap : Heap} {x y : Allocation} (hb : Ready h₀ ns base)
    (howns : Owns h₀ ns heap (as ++ [y])) (hx : x ∈ as) :
    x.ptr ≠ y.ptr ∧ (x.ptr.toNat + blockSize ≤ y.ptr.toNat ∨
      y.ptr.toNat + blockSize ≤ x.ptr.toNat) := by
  have hne : x.ptr ≠ y.ptr := by
    have hnd := howns.nodup hb
    rw [map_append] at hnd
    exact fun heq => disjoint_of_nodup_append hnd (mem_map_of_mem hx)
      (by rw [heq]; exact mem_cons_self)
  exact ⟨hne, howns.apart hb (mem_append_left _ hx) (mem_append_right _ mem_cons_self) hne⟩

/-! ### The parent -/

/-- In front of the last separator the path is shorter, and `_cwd_len` is not. -/
theorem Homed.not_valid_chdirParent (h : Homed h₀ ns s t) (hb : Ready h₀ ns base)
    (hret : chdirParent fuel s = some (s', k)) : ¬CwdValid ns s' := by
  obtain ⟨as, howns, hmem⟩ := h.owns
  obtain ⟨⟨a, m, new⟩, hmove, hret⟩ := bind_eq_some_iff.mp hret
  have hlt := length_parent_lt t
  have hshort := h.short
  have hcwd : s.cwd ≠ 0 := howns.ptr_ne_zero hb hmem
  rcases mallocText_spec hb howns hcwd h.holds (by simp) (by omega) hmove with
    ⟨rfl, -, -⟩ | ⟨hnew, rfl, size, howns'⟩
  · simp at hret
  simp only [hnew] at hret
  obtain ⟨m', hcopy, hret⟩ := bind_eq_some_iff.mp hret
  obtain ⟨heap, hfree, hret⟩ := bind_eq_some_iff.mp hret
  cases hret
  have hapart := (apart_of_new hb howns' hmem).2
  simp only [blockSize] at hapart
  have hchars : ∀ c ∈ parent (slash :: t), c ≠ 0 := fun c hc =>
    h.holds.ne_zero c (mem_of_mem_parent hc)
  have hnewtext := holds_poke (m := s.mem) (p := new.toNat) hchars
  obtain rfl := strcpy_eq hcopy hnewtext (by omega)
  intro hvalid
  have hlen := hvalid.length_eq (holds_poke hchars)
  have hold := h.length
  simp only at hlen
  omega

/-! ### Relative paths -/

theorem toNat_ofNat_length (h : path.length < 500000000) :
    (UInt32.ofNat path.length).toNat = path.length :=
  UInt32.toNat_ofNat_of_lt' (by simp only [UInt32.size]; omega)

/-- The current directory, maybe a separator, and the path, apart from `_cwd`. -/
theorem holds_joined {m1 m2 m3 : Memory} {tmp cwdLen : UInt32} (hu : Holds m cwd.toNat u)
    (hlen : u.length < 260) (hchars : ∀ c ∈ path, c ≠ 0)
    (hapart : cwd.toNat + 1024 ≤ tmp.toNat ∨ tmp.toNat + 1024 ≤ cwd.toNat)
    (hcopy : strcpy fuel m tmp.toNat cwd.toNat = some m1)
    (hsep : separate fuel m1 tmp cwdLen = some m2)
    (hcat : strcat fuel m2 tmp.toNat path = some m3) :
    ∃ v, v.length ≤ 1 ∧ Holds m3 tmp.toNat (u ++ v ++ path) ∧
      (u.length + path.length < 1000 → Holds m3 cwd.toNat u) := by
  obtain rfl := strcpy_eq hcopy hu (by omega)
  have h1 := holds_poke (m := m) (p := tmp.toNat) hu.ne_zero
  have hkept : Holds (poke m tmp.toNat (u ++ [0])) cwd.toNat u := hu.poke (by
    rw [length_append, length_singleton]
    omega)
  unfold separate at hsep
  split at hsep
  · obtain rfl := strcat_eq hsep h1
    have h2 := h1.append (t := [slash]) (by simp [slash])
    obtain rfl := strcat_eq hcat h2
    refine ⟨[slash], Nat.le_refl 1, h2.append hchars, fun hshort => (hkept.poke ?_).poke ?_⟩
    all_goals
      simp only [length_append, length_singleton]
      omega
  · cases hsep
    obtain rfl := strcat_eq hcat h1
    refine ⟨[], Nat.zero_le 1, by rw [append_nil]; exact h1.append hchars, fun hshort => ?_⟩
    refine hkept.poke ?_
    rw [length_append, length_singleton]
    omega

/-- **The path behind the current directory** is built in a block. -/
theorem joinPath_inv (hb : Ready h₀ ns base) (howns : Owns h₀ ns s.alloc.heap as)
    (hmem : ⟨s.cwd, 260⟩ ∈ as) (hu : Holds s.mem s.cwd.toNat u) (hshort : u.length < 260)
    (hlen : s.cwdLen.toNat < 500000000) (hchars : ∀ c ∈ path, c ≠ 0)
    (hpath : path.length < 500000000) (hret : joinPath fuel s path = some (a, m, r)) :
    ∃ heap tmp size m' v, tmp ≠ 0 ∧ Owns h₀ ns heap (as ++ [⟨tmp, size⟩]) ∧ v.length ≤ 1 ∧
      Holds m' tmp.toNat (u ++ v ++ path) ∧
      (u.length + path.length < 1000 → Holds m' s.cwd.toNat u) ∧
      removeDoublePathSeparators fuel { s.alloc with heap := heap } m' tmp = some (a, m, r) := by
  obtain ⟨⟨heap, tmp⟩, hmalloc, hret⟩ := bind_eq_some_iff.mp hret
  have hthree : (3 : UInt32).toNat = 3 := rfl
  have hsize : (s.cwdLen + UInt32.ofNat path.length + 3).toNat =
      s.cwdLen.toNat + path.length + 3 := by
    rw [UInt32.toNat_add, UInt32.toNat_add, toNat_ofNat_length hpath]
    omega
  have howns' := howns.kmalloc hb (.inl ⟨by omega, by omega⟩) ⟨fuel, hmalloc⟩
  by_cases htmp : tmp = 0
  · simp [htmp] at hret
  simp only [htmp] at hret howns'
  obtain ⟨m1, hcopy, hret⟩ := bind_eq_some_iff.mp hret
  obtain ⟨m2, hsep, hret⟩ := bind_eq_some_iff.mp hret
  obtain ⟨m3, hcat, hret⟩ := bind_eq_some_iff.mp hret
  obtain ⟨v, hv, htext, hkept⟩ := holds_joined hu hshort hchars
    (apart_of_new hb howns' hmem).2 hcopy hsep hcat
  exact ⟨heap, tmp, _, m3, v, htmp, howns', hv, htext, hkept, hret⟩

section

variable (h : Homed h₀ ns s t) (hb : Ready h₀ ns base) (hchars : ∀ c ∈ path, c ≠ 0)
  (hpath : path.length < 100)

include h hb hchars hpath

theorem Homed.joinPath_spec (hret : joinPath fuel s path = some (a, m, r)) :
    Holds m s.cwd.toNat (slash :: t) ∧ ∃ as, Owns h₀ ns a.heap as ∧ ⟨s.cwd, 260⟩ ∈ as ∧
      (r ≠ 0 → ∃ size v, ⟨r, size⟩ ∈ as ∧ r ≠ s.cwd ∧ Holds m r.toNat v ∧
        v.length ≤ (slash :: t).length + 1 + path.length) := by
  obtain ⟨as, howns, hmem⟩ := h.owns
  have hlen := h.length
  have hshort := h.short
  obtain ⟨heap, tmp, size1, m1, v, htmp, howns1, hv, htext, hkept, hret⟩ := joinPath_inv hb howns
    hmem h.holds (by omega) (by omega) hchars (by omega) hret
  have hcwd := hkept (by omega)
  have hmem1 := mem_append_left [⟨tmp, size1⟩] hmem
  have hjoined : (slash :: t ++ v ++ path).length ≤ (slash :: t).length + 1 + path.length := by
    rw [length_append, length_append]
    omega
  rcases mallocText_spec hb howns1 htmp htext (by simp) (by omega) hret with
    ⟨rfl, rfl, howns2⟩ | ⟨hr, rfl, size, howns2⟩
  · exact ⟨hcwd, _, howns2, hmem1, fun hr => absurd rfl hr⟩
  · obtain ⟨hne, hapart⟩ := apart_of_new hb howns2 hmem1
    have hle := length_squeeze_le (slash :: t ++ v ++ path)
    simp only [blockSize] at hapart
    refine ⟨hcwd.poke ?_, _, howns2, mem_append_left _ hmem1, fun _ =>
      ⟨size, _, mem_append_right _ mem_cons_self, Ne.symm hne, holds_poke ?_, by omega⟩⟩
    · rw [length_append, length_singleton]
      omega
    · exact fun c hc => htext.ne_zero c (mem_of_mem_squeeze hc)

theorem Homed.chdirRelative_false (hret : chdirRelative fuel s path false = some (s', k)) :
    Homed h₀ ns s' t := by
  obtain ⟨⟨a, m, tmp⟩, hjoin, hret⟩ := bind_eq_some_iff.mp hret
  obtain ⟨heap, hfree, hret⟩ := bind_eq_some_iff.mp hret
  cases hret
  obtain ⟨hcwd, as, howns, hmem, hnew⟩ := h.joinPath_spec hb hchars hpath hjoin
  refine ⟨?_, hcwd, h.length, h.short, h.useCwd⟩
  by_cases htmp : tmp = 0
  · exact ⟨as, howns.kfree_zero hb ⟨fuel, htmp ▸ hfree⟩, hmem⟩
  · obtain ⟨size, v, hblock, hne, -⟩ := hnew htmp
    refine ⟨_, howns.kfree hb hblock ⟨fuel, hfree⟩, (mem_erase_of_ne ?_).mpr hmem⟩
    exact fun heq => hne (congrArg Allocation.ptr heq).symm

/-- With one, `_cwd_len` is larger than the length. -/
theorem Homed.not_valid_chdirRelative (hret : chdirRelative fuel s path true = some (s', k)) :
    ¬CwdValid ns s' := by
  obtain ⟨⟨a, m, tmp⟩, hjoin, hret⟩ := bind_eq_some_iff.mp hret
  obtain ⟨hcwd, as, howns, hmem, hnew⟩ := h.joinPath_spec hb hchars hpath hjoin
  by_cases htmp : tmp = 0
  · simp [htmp] at hret
  simp only [htmp] at hret
  obtain ⟨m', hcopy, hret⟩ := bind_eq_some_iff.mp hret
  obtain ⟨heap, -, hret⟩ := bind_eq_some_iff.mp hret
  cases hret
  obtain ⟨size, v, hblock, hne, hv, hle⟩ := hnew htmp
  have hapart := howns.apart hb hblock hmem hne
  have hshort := h.short
  simp only [blockSize] at hapart
  obtain rfl := strcpy_eq hcopy hv (by omega)
  intro hvalid
  have hnew := hvalid.length_eq (holds_poke hv.ne_zero)
  have hold := h.length
  have hcount : (UInt32.ofNat path.length).toNat = path.length := toNat_ofNat_length (by omega)
  have hone : (1 : UInt32).toNat = 1 := rfl
  have htwo : (2 : UInt32).toNat = 2 := rfl
  simp only [UInt32.toNat_add] at hnew
  omega

end

/-! ### One call -/

theorem Homed.chdir_root (h : Homed h₀ ns s t) {c : Call} (hslash : c.path.head? = some slash)
    {r : Option ℤ} (hret : chdir fuel s c = some (s', r)) : s' = (chdirAbsolute s c.path).1 := by
  have hdots : c.path ≠ dotDot := fun heq => by simp [heq, dotDot, slash] at hslash
  rw [chdir, if_pos h.useCwd, if_neg hdots, if_pos hslash] at hret
  exact (Prod.mk.inj (some.inj hret)).1.symm

/-- **A harmless call** keeps the current directory valid. -/
theorem Homed.harmless (h : Homed h₀ ns s t) (hb : Ready h₀ ns base) {c : Call} (hc : c.Proper)
    (hharm : Harmless s c) {r : Option ℤ} (hret : chdir fuel s c = some (s', r)) :
    ∃ t', Homed h₀ ns s' t' := by
  simp only [Harmless] at hharm
  split at hharm
  · next hslash =>
    -- the new path has the length of the old one
    obtain rfl := h.chdir_root hslash hret
    obtain ⟨t', ht'⟩ : ∃ t', c.path = slash :: t' := ⟨_, (cons_head?_tail hslash).symm⟩
    have hholds : Holds (poke s.mem s.cwd.toNat (c.path ++ [0])) s.cwd.toNat c.path :=
      holds_poke hc.text
    have hshort := hc.short
    rw [ht'] at hholds hshort hharm
    exact ⟨t', h.owns, ht' ▸ hholds, hharm.symm, hshort, h.useCwd⟩
  · next hslash =>
    rw [chdir, if_pos h.useCwd, if_neg hharm.1, if_neg hslash, hharm.2] at hret
    obtain ⟨⟨s'', k⟩, hrel, he⟩ := map_eq_some_iff.mp hret
    cases he
    exact ⟨t, h.chdirRelative_false hb hc.text hc.short hrel⟩

/-- **A call that is not harmless** makes it invalid. -/
theorem Homed.harmful (h : Homed h₀ ns s t) (hb : Ready h₀ ns base) {c : Call} (hc : c.Proper)
    (hharm : ¬Harmless s c) {r : Option ℤ} (hret : chdir fuel s c = some (s', r)) :
    ¬CwdValid ns s' := by
  simp only [Harmless] at hharm
  split at hharm
  · next hslash =>
    obtain rfl := h.chdir_root hslash hret
    exact fun hvalid => hharm (hvalid.length_eq (holds_poke hc.text)).symm
  · next hslash =>
    rw [chdir, if_pos h.useCwd] at hret
    by_cases hdots : c.path = dotDot
    · rw [if_pos hdots] at hret
      obtain ⟨⟨s'', k⟩, hpar, he⟩ := map_eq_some_iff.mp hret
      cases he
      exact h.not_valid_chdirParent hb hpar
    · have hdir : c.isDir = true := by
        cases hd : c.isDir with
        | true => rfl
        | false => exact absurd ⟨hdots, hd⟩ hharm
      rw [if_neg hdots, if_neg hslash, hdir] at hret
      obtain ⟨⟨s'', k⟩, hrel, he⟩ := map_eq_some_iff.mp hret
      cases he
      exact h.not_valid_chdirRelative hb hc.text hc.short hrel

/-- After `init_fs`, the current directory is the root. -/
theorem homed_initFs (hb : Ready s.alloc.heap ns base) (hret : initFs fuel s = some (s', 1)) :
    Homed s.alloc.heap ns s' [] := by
  unfold initFs at hret
  split at hret
  · simp at hret
  · obtain ⟨⟨h, p⟩, hmalloc, he⟩ := map_eq_some_iff.mp hret
    have howns := hb.owns.kmalloc hb (sizeFits_of_lt (by decide) (by decide)) ⟨fuel, hmalloc⟩
    by_cases hp : p = 0
    · simp [hp] at he
    · simp only [hp, if_false, Prod.mk.injEq, and_true] at he howns
      subst he
      refine ⟨⟨_, howns, mem_append_right _ mem_cons_self⟩, ⟨?_, by decide, ?_⟩, rfl,
        by decide, rfl⟩
      · exact Function.update_self _ _ _
      · simp [Holds, poke]

end

/-! ### Runs of calls -/

section

variable {h₀ : Heap} {ns : List NodePtr} {base : List Allocation} {v s₀ s : Vfs}
  {steps : List (Vfs × Call)} {t : List UInt8}

theorem Homed.run (h : Homed h₀ ns s₀ t) (hb : Ready h₀ ns base) (hrun : CwdRun s₀ s steps)
    (hall : ∀ x ∈ steps, Harmless x.1 x.2) :
    (∀ x ∈ steps, CwdValid ns x.1) ∧ ∃ t', Homed h₀ ns s t' := by
  induction hrun with
  | start => exact ⟨fun x hx => absurd hx not_mem_nil, t, h⟩
  | call _ hc hret _ ih =>
    obtain ⟨hbefore, hlast⟩ := forall_mem_append.mp hall
    obtain ⟨hvalid, t', ht'⟩ := ih hbefore
    obtain ⟨fuel, hret⟩ := hret
    refine ⟨forall_mem_append.mpr ⟨hvalid, ?_⟩, ?_⟩
    · exact forall_mem_singleton.mpr ht'.valid
    · exact ht'.harmless hb hc (hlast _ mem_cons_self) hret

theorem Homed.harmless_of_run (h : Homed h₀ ns s₀ t) (hb : Ready h₀ ns base)
    (hrun : CwdRun s₀ s steps) (hall : ∀ x ∈ steps, CwdValid ns x.1) (hend : CwdValid ns s) :
    ∀ x ∈ steps, Harmless x.1 x.2 := by
  induction hrun with
  | start => exact fun x hx => absurd hx not_mem_nil
  | call hrun hc hret _ ih =>
    obtain ⟨hbefore, hlast⟩ := forall_mem_append.mp hall
    have hharm := ih hbefore (hlast _ mem_cons_self)
    obtain ⟨-, t', ht'⟩ := h.run hb hrun hharm
    obtain ⟨fuel, hret⟩ := hret
    refine forall_mem_append.mpr ⟨hharm, forall_mem_singleton.mpr ?_⟩
    exact not_not.mp fun hnot => ht'.harmful hb hc hnot hret hend

end

/-- **Along a run of calls of `chdir` after `init_fs`** the current directory is valid in every
state, if and only if every call is harmless. -/
theorem cwdValid_iff {ns : List NodePtr} {base : List Allocation} {v s₀ s : Vfs}
    {steps : List (Vfs × Call)} (hb : Ready v.alloc.heap ns base)
    (hinit : Returns (initFs · v) (s₀, 1)) (hrun : CwdRun s₀ s steps) :
    ((∀ x ∈ steps, CwdValid ns x.1) ∧ CwdValid ns s) ↔ ∀ x ∈ steps, Harmless x.1 x.2 := by
  obtain ⟨fuel, hinit⟩ := hinit
  have h := homed_initFs hb hinit
  constructor
  · rintro ⟨hall, hend⟩
    exact h.harmless_of_run hb hrun hall hend
  · intro hall
    obtain ⟨hvalid, t', ht'⟩ := h.run hb hrun hall
    exact ⟨hvalid, ht'.valid⟩

/-! ### Samples -/

/-- Before `init_fs`, with the heap of four blocks. -/
def freshVfs : Vfs := ⟨emptyAllocator, fun _ => 0, true, false, 0, 0⟩

/-- After `init_fs`. -/
def rootVfs : Vfs := ((initFs 4 freshVfs).getD (freshVfs, 0)).1

/-- The state a sequence of calls leads to. -/
def runCwd (s : Vfs) (cs : List Call) : Vfs :=
  cs.foldl (fun s c => ((chdir 8 s c).getD (s, none)).1) s

theorem ready_freshVfs : Ready freshVfs.alloc.heap rowNodes [] :=
  Ready.of_reachable initial_rowHeap .start rfl rfl rfl

/-- A name that is not that of a directory, and the root. -/
theorem cwdValid_missing_root : ∃ steps,
    CwdRun rootVfs (runCwd rootVfs [⟨[97], false⟩, ⟨[slash], true⟩]) steps ∧
    CwdValid rowNodes (runCwd rootVfs [⟨[97], false⟩, ⟨[slash], true⟩]) := by
  have h₀ : CwdRun rootVfs rootVfs [] := .start
  have h1 := h₀.call (c := ⟨[97], false⟩) ⟨by simp, by decide⟩ ⟨8, rfl⟩ (by decide)
  have h2 := h1.call (c := ⟨[slash], true⟩) ⟨by simp [slash], by decide⟩ ⟨8, rfl⟩ (by decide)
  refine ⟨_, h2, ((cwdValid_iff ready_freshVfs ⟨4, rfl⟩ h2).mpr fun x hx => ?_).2⟩
  simp only [nil_append, cons_append, mem_cons, not_mem_nil, or_false] at hx
  rcases hx with rfl | rfl
  · exact ⟨by decide, rfl⟩
  · exact rfl

/-- The parent of the root, twice: the block of the current directory is freed. -/
theorem not_cwdValid_dotDot_twice : ∃ steps,
    CwdRun rootVfs (runCwd rootVfs [⟨dotDot, false⟩, ⟨dotDot, false⟩]) steps ∧
    ¬CwdValid rowNodes (runCwd rootVfs [⟨dotDot, false⟩, ⟨dotDot, false⟩]) := by
  have h₀ : CwdRun rootVfs rootVfs [] := .start
  have h1 := h₀.call (c := ⟨dotDot, false⟩) ⟨by simp [dotDot], by decide⟩ ⟨8, rfl⟩ (by decide)
  have h2 := h1.call (c := ⟨dotDot, false⟩) ⟨by simp [dotDot], by decide⟩ ⟨8, rfl⟩ (by decide)
  refine ⟨_, h2, fun hvalid => ?_⟩
  obtain ⟨⟨q, hq, -, halloc, -⟩, -⟩ := hvalid
  revert halloc
  simp only [mem_cons, not_mem_nil, or_false] at hq
  rcases hq with rfl | rfl | rfl | rfl <;> decide

end AthenX.Files
