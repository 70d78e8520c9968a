import AthenX.Elf.Cleanup
import AthenX.Lib.CString

/-!
# The list of programs

`find_programs`, `is_elf` and `add_filename_to_array` of `kernel/elf/exe.c` write the names of the
programs in a directory to an array with 20 bytes for each name. The test is the wrong way round: a
name is added if `is_elf` returns zero, as for a file that is no program or cannot be opened. A file
shorter than the header leaves the rest of it as it was on the stack. A name of 20 characters has
its zero in the next name.

The files are those that `fl_listdirectory` has found, and their paths fit the buffer.
-/

namespace AthenX.Elf

open CString List

/-! ### The source -/

/-- A file of a directory. -/
structure File where
  name : List UInt8
  content : List UInt8
  /-- Does `fl_fopen` return a file? -/
  opens : Bool
  /-- The stack where `is_elf` has its header. -/
  stale : ℕ → UInt8

/-- A byte of the header after `fl_fread`. -/
def File.header (f : File) (i : ℕ) : UInt8 := f.content[i]?.getD (f.stale i)

/-- `is_elf`. -/
def isElf (f : File) : ℕ :=
  if f.opens = false then 0
  else if (List.range 4).map f.header = elfMagic then 1
  else 0

/-- The bytes of an entry. -/
def slotSize : ℕ := 20

/-- `MAX_ARRAY_SIZE`. -/
def maxArraySize : ℕ := 100

/-- `add_filename_to_array`: the array, and has the name been added? -/
def addFilenameToArray (filename : List UInt8) (m : Memory) (arraySize : ℕ) : Memory × Bool :=
  if filename.length ≤ 20 then
    if arraySize < maxArraySize then (poke m (slotSize * arraySize) (filename ++ [0]), true)
    else (m, false)
  else (m, false)

/-- The loop of `find_programs`, with `programs` and `num_programs`. -/
def findPrograms : List File → Memory → ℕ → Memory × ℕ
  | [], m, n => (m, n)
  | f :: fs, m, n =>
      if isElf f = 0 then
        let (m, added) := addFilenameToArray f.name m n
        findPrograms fs m (if added then n + 1 else n)
      else findPrograms fs m n

/-! ### The property and the condition -/

/-- A directory of at most 100 files, which are opened by their names. -/
structure Directory where
  files : List File
  count : files.length ≤ maxArraySize
  name_inj : ∀ f ∈ files, ∀ g ∈ files, f.name = g.name → f = g
  name_ne_nil : ∀ f ∈ files, f.name ≠ []
  name_ne_zero : ∀ f ∈ files, ∀ c ∈ f.name, c ≠ 0

/-- The names of the programs that have at most 20 characters. -/
def Directory.programs (d : Directory) : List (List UInt8) :=
  (d.files.filter fun f => elfMagic <+: f.content ∧ f.name.length ≤ 20).map File.name

/-- The array, empty before, holds the programs, each of which reads as its name. -/
def Listed (m : Memory) (d : Directory) : Prop :=
  (findPrograms d.files m 0).2 = d.programs.length ∧
    ∀ k name, d.programs[k]? = some name → Holds (findPrograms d.files m 0).1 (slotSize * k) name

/-- Short names are those of programs that cannot be opened, or of less than four bytes that the
stack completes; and only the last name has 20 characters. -/
def Harmless (d : Directory) : Prop :=
  (∀ f ∈ d.files, f.name.length ≤ 20 →
    if f.opens then f.content.length < 4 ∧ (List.range 4).map f.header = elfMagic
    else elfMagic <+: f.content) ∧
  ∀ name ∈ d.programs.dropLast, name.length < 20

/-! ### The names that are written -/

/-- Write names, from entry `k` on. -/
def writeNames (m : Memory) : ℕ → List (List UInt8) → Memory
  | _, [] => m
  | k, a :: as => writeNames (poke m (slotSize * k) (a ++ [0])) (k + 1) as

/-- The names that are added. -/
def taken (fs : List File) : List (List UInt8) :=
  (fs.filter fun f => isElf f = 0 ∧ f.name.length ≤ 20).map File.name

section

variable {m : Memory} {d : Directory} {f : File} {fs : List File} {p k : ℕ} {a : List UInt8}
  {as : List (List UInt8)}

theorem findPrograms_eq : ∀ {fs : List File} {m : Memory} {n : ℕ}, n + fs.length ≤ maxArraySize →
    findPrograms fs m n = (writeNames m n (taken fs), n + (taken fs).length) := by
  intro fs
  induction fs with
  | nil => exact fun _ => rfl
  | cons f fs ih =>
    intro m n hn
    rw [length_cons] at hn
    rw [findPrograms, taken]
    by_cases helf : isElf f = 0
    · by_cases hlen : f.name.length ≤ 20
      · rw [if_pos helf, addFilenameToArray, if_pos hlen, if_pos (by omega),
          filter_cons_of_pos (by simp [helf, hlen])]
        simp only [if_true, map_cons, length_cons]
        rw [ih (by omega), writeNames, taken, Nat.add_assoc, Nat.add_comm 1]
      · rw [if_pos helf, addFilenameToArray, if_neg hlen, filter_cons_of_neg (by simp [hlen])]
        simp only [Bool.false_eq_true, if_false]
        exact ih (by omega)
    · rw [if_neg helf, filter_cons_of_neg (by simp [helf])]
      exact ih (by omega)

theorem writeNames_of_lt (h : p < slotSize * k) : writeNames m k as p = m p := by
  induction as generalizing m k with
  | nil => rfl
  | cons a as ih =>
    rw [writeNames, ih (by rw [Nat.mul_succ]; omega), poke_of_lt h]

theorem holds_writeNames (hz : ∀ c ∈ a, c ≠ 0) (hlast : a.length < 20 ∨ as = []) :
    Holds (writeNames m k (a :: as)) (slotSize * k) a := by
  rw [writeNames]
  refine (holds_poke (m := m) hz).congr fun i _ hi => ?_
  rcases hlast with hlt | rfl
  · exact writeNames_of_lt (by rw [slotSize] at *; omega)
  · rfl

theorem starts_writeNames (hz : ∀ c ∈ a, c ≠ 0) (hlen : a.length ≤ 20) :
    Starts (writeNames m k (a :: as)) (slotSize * k) a := by
  rw [writeNames]
  refine (holds_poke (m := m) hz).starts.congr fun i hi => ?_
  exact writeNames_of_lt (by rw [slotSize] at *; omega)

/-! ### The names that are read -/

/-- The entries from `k` on read as these names. -/
def ReadsAs (m : Memory) : ℕ → List (List UInt8) → Prop
  | _, [] => True
  | k, a :: as => Holds m (slotSize * k) a ∧ ReadsAs m (k + 1) as

theorem readsAs_iff : ∀ {as : List (List UInt8)} {k : ℕ}, ReadsAs m k as ↔
    ∀ i a, as[i]? = some a → Holds m (slotSize * (k + i)) a := by
  intro as
  induction as with
  | nil => exact fun {k} => iff_of_true trivial fun i a ha => nomatch ha
  | cons b as ih =>
    intro k
    rw [ReadsAs, ih]
    constructor
    · rintro ⟨hb, hrest⟩ i a ha
      cases i with
      | zero =>
        obtain rfl : b = a := Option.some.inj ha
        exact hb
      | succ i =>
        rw [show k + (i + 1) = k + 1 + i by omega]
        exact hrest i a ha
    · intro hall
      refine ⟨hall 0 b rfl, fun i a ha => ?_⟩
      rw [show k + 1 + i = k + (i + 1) by omega]
      exact hall (i + 1) a ha

/-- A name that can be added. -/
def Short (a : List UInt8) : Prop := a ≠ [] ∧ (∀ c ∈ a, c ≠ 0) ∧ a.length ≤ 20

theorem eq_of_readsAs : ∀ {as es : List (List UInt8)} {m : Memory} {k : ℕ}, (∀ a ∈ as, Short a) →
    (∀ e ∈ es, e.length ≤ 20) → as.length = es.length → ReadsAs (writeNames m k as) k es →
    as = es := by
  intro as
  induction as with
  | nil => exact fun _ _ hlen _ => (eq_nil_of_length_eq_zero hlen.symm).symm
  | cons a as ih =>
    intro es m k has hes hlen hreads
    cases es with
    | nil => cases hlen
    | cons e es =>
      obtain ⟨⟨-, hz, hle⟩, has⟩ := forall_mem_cons.mp has
      obtain ⟨hele, hes⟩ := forall_mem_cons.mp hes
      obtain ⟨he, hrest⟩ := hreads
      have hae : a = e := by
        rcases Nat.lt_or_ge a.length 20 with hlt | hge
        · exact (holds_writeNames hz (.inl hlt)).unique he
        · exact (isPrefix_of_starts (starts_writeNames hz hle) hz he).eq_of_length_le (by omega)
      rw [hae, ih has hes (Nat.succ.inj hlen) hrest]

/-- **Names are read back** iff all but the last one have less than 20 characters. -/
theorem readsAs_writeNames_iff : ∀ {as : List (List UInt8)} {m : Memory} {k : ℕ},
    (∀ a ∈ as, Short a) →
    (ReadsAs (writeNames m k as) k as ↔ ∀ a ∈ as.dropLast, a.length < 20) := by
  intro as
  induction as with
  | nil => exact fun _ => iff_of_true trivial fun a ha => nomatch ha
  | cons a as ih =>
    intro m k has
    obtain ⟨⟨-, hz, hle⟩, has⟩ := forall_mem_cons.mp has
    cases as with
    | nil => exact iff_of_true ⟨holds_writeNames hz (.inr rfl), trivial⟩ fun a ha => nomatch ha
    | cons b as =>
      rw [dropLast_cons_cons, forall_mem_cons]
      have hrest : ReadsAs (writeNames m k (a :: b :: as)) (k + 1) (b :: as) ↔
          ∀ a ∈ (b :: as).dropLast, a.length < 20 := ih has
      refine and_congr ⟨fun ha => ?_, fun hlt => holds_writeNames hz (.inl hlt)⟩ hrest
      -- otherwise the zero would be in the place of the first character of the next name
      by_contra hge
      obtain ⟨hb, hbz, hble⟩ := has b mem_cons_self
      obtain ⟨c, b, rfl⟩ := exists_cons_of_ne_nil hb
      have hend := ha.terminator
      have hnext : Starts (writeNames m k (a :: (c :: b) :: as)) (slotSize * (k + 1)) (c :: b) :=
        starts_writeNames hbz hble
      rw [show slotSize * k + a.length = slotSize * (k + 1) by rw [slotSize]; omega] at hend
      exact hbz c mem_cons_self (hnext.1.symm.trans hend)

/-! ### The files -/

theorem range_map_header (h : 4 ≤ f.content.length) :
    (List.range 4).map f.header = f.content.take 4 := by
  refine ext_getElem (by simp; omega) fun i h1 h2 => ?_
  rw [length_map, length_range] at h1
  rw [getElem_map, getElem_range, getElem_take, File.header,
    List.getElem?_eq_getElem (by omega), Option.getD_some]

theorem magic_isPrefix_iff : elfMagic <+: f.content ↔
    4 ≤ f.content.length ∧ (List.range 4).map f.header = elfMagic := by
  rw [prefix_iff_eq_take, show elfMagic.length = 4 from rfl]
  constructor
  · intro h
    have hlen : 4 ≤ f.content.length := by
      have := congrArg List.length h
      rw [length_take, show elfMagic.length = 4 from rfl] at this
      omega
    exact ⟨hlen, (range_map_header hlen).trans h.symm⟩
  · rintro ⟨hlen, h⟩
    rw [← range_map_header hlen, h]

theorem isElf_eq_zero_iff : (isElf f = 0 ↔ elfMagic <+: f.content) ↔
    if f.opens then f.content.length < 4 ∧ (List.range 4).map f.header = elfMagic
    else elfMagic <+: f.content := by
  cases hopens : f.opens with
  | false => simp [isElf, hopens]
  | true =>
    rw [if_pos rfl, magic_isPrefix_iff, isElf, if_neg (by simp [hopens])]
    by_cases h : (List.range 4).map f.header = elfMagic
    · rw [if_pos h]
      simp only [h, and_true]
      omega
    · rw [if_neg h]
      simp [h]

theorem filter_map_name_inj {P Q : File → Bool}
    (hinj : ∀ f ∈ fs, ∀ g ∈ fs, f.name = g.name → f = g) :
    (fs.filter P).map File.name = (fs.filter Q).map File.name ↔ ∀ f ∈ fs, P f = Q f := by
  constructor
  · intro heq f hf
    have hmem : ∀ R : File → Bool, f.name ∈ (fs.filter R).map File.name ↔ R f = true := by
      intro R
      constructor
      · intro h
        obtain ⟨g, hg, hname⟩ := mem_map.mp h
        obtain ⟨hgfs, hR⟩ := mem_filter.mp hg
        rwa [← hinj g hgfs f hf hname]
      · exact fun hR => mem_map_of_mem (mem_filter.mpr ⟨hf, hR⟩)
    rw [Bool.eq_iff_iff, ← hmem P, ← hmem Q, heq]
  · intro h
    rw [filter_congr h]

theorem taken_eq_programs_iff (d : Directory) : taken d.files = d.programs ↔
    ∀ f ∈ d.files, f.name.length ≤ 20 →
      if f.opens then f.content.length < 4 ∧ (List.range 4).map f.header = elfMagic
      else elfMagic <+: f.content := by
  rw [taken, Directory.programs, filter_map_name_inj d.name_inj]
  refine forall₂_congr fun f hf => ?_
  rw [← isElf_eq_zero_iff, decide_eq_decide, and_congr_left_iff]

theorem short_of_mem {P : File → Prop} [DecidablePred P]
    (h : a ∈ (d.files.filter fun f => P f ∧ f.name.length ≤ 20).map File.name) : Short a := by
  obtain ⟨f, hf, rfl⟩ := mem_map.mp h
  obtain ⟨hmem, hsel⟩ := mem_filter.mp hf
  exact ⟨d.name_ne_nil f hmem, d.name_ne_zero f hmem, (of_decide_eq_true hsel).2⟩

/-- **The array holds the programs if and only if the directory is harmless.** -/
theorem listed_iff (m : Memory) (d : Directory) : Listed m d ↔ Harmless d := by
  have hreads : ∀ M : Memory, (∀ k name, d.programs[k]? = some name →
      Holds M (slotSize * k) name) ↔ ReadsAs M 0 d.programs := fun M => by
    rw [readsAs_iff]
    simp
  rw [Listed, findPrograms_eq (by rw [Nat.zero_add]; exact d.count), hreads, Nat.zero_add, Harmless,
    ← taken_eq_programs_iff]
  constructor
  · rintro ⟨hlen, hread⟩
    have heq : taken d.files = d.programs := eq_of_readsAs (fun a ha => short_of_mem ha)
      (fun e he => (short_of_mem he).2.2) hlen hread
    rw [heq] at hread
    exact ⟨heq, (readsAs_writeNames_iff fun a ha => short_of_mem ha).mp hread⟩
  · rintro ⟨heq, hlast⟩
    rw [heq]
    exact ⟨rfl, (readsAs_writeNames_iff fun a ha => short_of_mem ha).mpr hlast⟩

end

/-! ### A program and a text -/

/-- The program `a` and the text `b`. -/
def twoFiles : Directory where
  files := [⟨[97], [0x7f, 0x45, 0x4c, 0x46, 1], true, fun _ => 0⟩,
    ⟨[98], [104, 105, 33, 33], true, fun _ => 0⟩]
  count := by decide
  name_inj := by simp
  name_ne_nil := by simp
  name_ne_zero := by simp

/-- The text is listed, and the program is not. -/
theorem not_listed_twoFiles : ¬Listed (fun _ => 0) twoFiles ∧ twoFiles.programs = [[97]] ∧
    (findPrograms twoFiles.files (fun _ => 0) 0).2 = 1 ∧
    Holds (findPrograms twoFiles.files (fun _ => 0) 0).1 0 [98] := by
  have hb : Holds (writeNames (fun _ => 0) 0 [[98]]) 0 [98] :=
    holds_writeNames (by simp) (.inr rfl)
  refine ⟨fun h => ?_, rfl, rfl, hb⟩
  have ha : Holds (writeNames (fun _ => 0) 0 [[98]]) 0 [97] := h.2 0 [97] rfl
  exact absurd (ha.unique hb) (by decide)

end AthenX.Elf
