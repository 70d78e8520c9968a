import AthenX.Dwarf.Leb128
import AthenX.Lib.Bytes

/-!
# The sections with the debug information

`parse_debug_info` and `parse_debug_abbrev` of `kernel/dwarf/dwarf.c` go through the units of a
section by their lengths, and through a table of abbreviations. What they print is what they return
here.

The length is added to the pointer in 32 bits, so a unit of `0xFFFFFFFC` bytes is followed by
itself. The end of the table is looked at only between two abbreviations, and reading behind it is
`none`.
-/

namespace AthenX.Dwarf

open List Option

/-! ### The units -/

/-- `DWARF_CU_Header`, which is packed. -/
structure CuHeader where
  unitLength : UInt32
  version : UInt16
  abbrevOffset : UInt32
  addressSize : UInt8

/-- The header at an address: eleven bytes. -/
def cuHeader (m : Bytes.Memory) (p : UInt32) : CuHeader where
  unitLength := Bytes.load32 m p
  version := UInt16.ofNat ((m (p + 4)).toNat + 256 * (m (p + 5)).toNat)
  abbrevOffset := Bytes.load32 m (p + 6)
  addressSize := m (p + 10)

/-- The loop of `parse_debug_info`, up to `stop`: at most `fuel` headers with their addresses. -/
def parseUnits (m : Bytes.Memory) (stop : UInt32) : ℕ → UInt32 → Option (List (UInt32 × CuHeader))
  | 0, _ => none
  | fuel + 1, ptr =>
      if ptr < stop then
        let header := cuHeader m ptr
        (parseUnits m stop fuel (ptr + (header.unitLength + 4))).map ((ptr, header) :: ·)
      else some []

/-- The block that was allocated for a section and read from the file. -/
structure InfoSection where
  base : UInt32
  size : UInt32
  memory : Bytes.Memory
  fits : base.toNat + size.toNat < 2 ^ 32

/-- The header at `p` is inside of the section. -/
def InfoSection.Inside (s : InfoSection) (p : UInt32) : Prop :=
  s.base.toNat ≤ p.toNat ∧ p.toNat + 11 ≤ s.base.toNat + s.size.toNat

/-- The loop ends, and every header is inside of the section. -/
def SafeInfo (s : InfoSection) : Prop :=
  ∃ fuel units, parseUnits s.memory (s.base + s.size) fuel s.base = some units ∧
    ∀ u ∈ units, s.Inside u.1

/-- From `p` on, each length leads to the next header, and at last to the end. -/
inductive Units (s : InfoSection) : UInt32 → Prop
  | done {p : UInt32} (hend : s.base.toNat + s.size.toNat ≤ p.toNat) : Units s p
  | unit {p : UInt32} (hin : s.Inside p)
      (hnext : Units s (p + (Bytes.load32 s.memory p + 4))) : Units s p

section

variable {s : InfoSection} {p : UInt32} {fuel : ℕ} {units : List (UInt32 × CuHeader)}

theorem InfoSection.lt_stop_iff (s : InfoSection) (p : UInt32) :
    p < s.base + s.size ↔ p.toNat < s.base.toNat + s.size.toNat := by
  rw [UInt32.lt_iff_toNat_lt, UInt32.toNat_add, Nat.mod_eq_of_lt s.fits]

theorem units_of_parseUnits (h : parseUnits s.memory (s.base + s.size) fuel p = some units)
    (hin : ∀ u ∈ units, s.Inside u.1) : Units s p := by
  induction fuel generalizing p units with
  | zero => exact nomatch h
  | succ fuel ih =>
    by_cases hp : p < s.base + s.size
    · rw [parseUnits, if_pos hp] at h
      obtain ⟨units, hunits, rfl⟩ := map_eq_some_iff.mp h
      rw [forall_mem_cons] at hin
      exact .unit hin.1 (ih hunits hin.2)
    · rw [s.lt_stop_iff, Nat.not_lt] at hp
      exact .done hp

theorem Units.parseUnits (h : Units s p) :
    ∃ fuel units, parseUnits s.memory (s.base + s.size) fuel p = some units ∧
      ∀ u ∈ units, s.Inside u.1 := by
  induction h with
  | done hend =>
    refine ⟨1, [], if_neg ?_, nofun⟩
    rw [s.lt_stop_iff]
    omega
  | @unit p hin _ ih =>
    obtain ⟨fuel, units, hunits, hall⟩ := ih
    have hp : p < s.base + s.size := by
      rw [s.lt_stop_iff]
      have := hin.2
      omega
    refine ⟨fuel + 1, (p, cuHeader s.memory p) :: units, ?_, forall_mem_cons.mpr ⟨hin, hall⟩⟩
    rw [Dwarf.parseUnits, if_pos hp]
    exact map_eq_some_iff.mpr ⟨units, hunits, rfl⟩

end

/-- **The units are read inside of the section iff each one leads to the next**, up to the end. -/
theorem safeInfo_iff (s : InfoSection) : SafeInfo s ↔ Units s s.base :=
  ⟨fun ⟨_, _, h, hin⟩ => units_of_parseUnits h hin, Units.parseUnits⟩

/-- A section with one unit, of `0xFFFFFFFC` bytes. -/
def sampleInfo : InfoSection where
  base := 0x10000
  size := 11
  memory := fun a => if a = 0x10000 then 0xFC else if a < 0x10004 then 0xFF else 0
  fits := by decide

/-- Its length leads from the header to the same header. -/
theorem not_safeInfo_sampleInfo : ¬ SafeInfo sampleInfo := by
  have hstep : sampleInfo.base + (Bytes.load32 sampleInfo.memory sampleInfo.base + 4) =
      sampleInfo.base := by decide
  have hne : ∀ p, Units sampleInfo p → p ≠ sampleInfo.base := by
    intro p h
    induction h with
    | done hend =>
      rintro rfl
      exact absurd hend (by decide)
    | unit _ _ ih =>
      rintro rfl
      exact ih hstep
  rintro ⟨_, _, h, hin⟩
  exact hne _ (units_of_parseUnits h hin) rfl

/-! ### The abbreviations -/

/-- Decode a number and go behind it. -/
def advance (ptr : List UInt8) : Option (UInt32 × List UInt8) :=
  (decodeUleb128 ptr).map fun (v, n) => (v, ptr.drop n)

/-- `bs` are the bytes of one number that is decoded as `v`. -/
def Number (v : UInt32) (bs : List UInt8) : Prop := decodeUleb128 bs = some (v, bs.length)

section

variable {ptr ptr' bs : List UInt8} {result shift v w : UInt32} {b : UInt8} {n k : ℕ}

theorem lebLoop_eq_some (h : lebLoop ptr result shift n = some (v, b, w, k)) :
    ∃ bs ptr', ptr = bs ++ ptr' ∧ k = n + bs.length ∧ bs ≠ [] ∧
      ∀ rest, lebLoop (bs ++ rest) result shift n = some (v, b, w, k) := by
  induction ptr generalizing result shift n with
  | nil => exact nomatch h
  | cons c ptr ih =>
    rw [lebLoop] at h
    by_cases hc : c &&& 0x80 = 0
    · rw [if_pos hc] at h
      have hk : n + 1 = k := by
        cases h
        rfl
      refine ⟨[c], ptr, rfl, hk.symm, cons_ne_nil _ _, fun rest => ?_⟩
      rw [singleton_append, lebLoop, if_pos hc]
      exact h
    · rw [if_neg hc] at h
      obtain ⟨bs, ptr', rfl, hk, _, hloop⟩ := ih h
      refine ⟨c :: bs, ptr', rfl, by rw [length_cons]; omega, cons_ne_nil _ _, fun rest => ?_⟩
      rw [cons_append, lebLoop, if_neg hc]
      exact hloop rest

theorem decodeUleb128_eq_some (h : decodeUleb128 ptr = some (v, n)) :
    ∃ bs ptr', ptr = bs ++ ptr' ∧ n = bs.length ∧ bs ≠ [] ∧
      ∀ rest, decodeUleb128 (bs ++ rest) = some (v, n) := by
  obtain ⟨⟨_, b, w, _⟩, hloop, heq⟩ := map_eq_some_iff.mp h
  cases heq
  obtain ⟨bs, ptr', hptr, hn, hne, hall⟩ := lebLoop_eq_some hloop
  rw [Nat.zero_add] at hn
  exact ⟨bs, ptr', hptr, hn, hne, fun rest => by rw [decodeUleb128, hall rest]; rfl⟩

theorem advance_eq_some_iff :
    advance ptr = some (v, ptr') ↔ ∃ bs, Number v bs ∧ ptr = bs ++ ptr' := by
  constructor
  · intro h
    obtain ⟨⟨_, n⟩, hdecode, heq⟩ := map_eq_some_iff.mp h
    cases heq
    obtain ⟨bs, rest, hptr, rfl, _, hall⟩ := decodeUleb128_eq_some hdecode
    have hnumber := hall []
    rw [append_nil] at hnumber
    exact ⟨bs, hnumber, by rw [hptr, drop_left]⟩
  · rintro ⟨bs, hnumber, rfl⟩
    obtain ⟨cs, rest, hcs, hlen, _, hall⟩ := decodeUleb128_eq_some hnumber
    obtain rfl : bs = cs := by
      have hrest := congrArg List.length hcs
      rw [length_append] at hrest
      rw [hcs, eq_nil_of_length_eq_zero (l := rest) (by omega), append_nil]
    rw [advance, hall ptr']
    exact congrArg (fun l => some (v, l)) drop_left

theorem advance_length (h : advance ptr = some (v, ptr')) : ptr'.length < ptr.length := by
  obtain ⟨bs, hnumber, rfl⟩ := advance_eq_some_iff.mp h
  obtain ⟨cs, _, rfl, _, hne, _⟩ := decodeUleb128_eq_some hnumber
  have hpos := length_pos_iff.mpr hne
  rw [length_append]
  omega

end

/-- The inner loop: the attributes up to the pair of zeros, and what is behind them. -/
def parseAttributes (ptr : List UInt8) : Option (List (UInt32 × UInt32) × List UInt8) :=
  match h₁ : advance ptr with
  | none => none
  | some (name, ptr₁) =>
    match h₂ : advance ptr₁ with
    | none => none
    | some (form, ptr₂) =>
      have : ptr₂.length < ptr.length := (advance_length h₂).trans (advance_length h₁)
      if name = 0 ∧ form = 0 then some ([], ptr₂)
      else (parseAttributes ptr₂).map fun (attributes, ptr) => ((name, form) :: attributes, ptr)
termination_by ptr.length

/-- The attributes of an abbreviation. -/
inductive Attributes : List UInt8 → Prop
  | last {name form : List UInt8} (hname : Number 0 name) (hform : Number 0 form) :
      Attributes (name ++ form)
  | cons {u v : UInt32} {name form bs : List UInt8} (hname : Number u name) (hform : Number v form)
      (hne : ¬ (u = 0 ∧ v = 0)) (hrest : Attributes bs) : Attributes (name ++ (form ++ bs))

section

variable {ptr ptr' bs : List UInt8} {u v : UInt32} {as : List (UInt32 × UInt32)}

theorem Number.advance (h : Number v bs) (ptr : List UInt8) : advance (bs ++ ptr) = some (v, ptr) :=
  advance_eq_some_iff.mpr ⟨bs, h, rfl⟩

theorem attributes_of_parseAttributes (h : parseAttributes ptr = some (as, ptr')) :
    ∃ bs, Attributes bs ∧ ptr = bs ++ ptr' := by
  fun_induction parseAttributes ptr generalizing as with
  | case1 | case2 => exact nomatch h
  | case3 ptr name ptr1 h1 form ptr2 h2 _ hzero =>
    cases h
    obtain ⟨name, hname, rfl⟩ := advance_eq_some_iff.mp h1
    obtain ⟨form, hform, rfl⟩ := advance_eq_some_iff.mp h2
    rw [hzero.1] at hname
    rw [hzero.2] at hform
    exact ⟨_, .last hname hform, (append_assoc _ _ _).symm⟩
  | case4 ptr name ptr1 h1 form ptr2 h2 _ hne ih =>
    obtain ⟨⟨as, ptr'⟩, hparse, heq⟩ := map_eq_some_iff.mp h
    cases heq
    obtain ⟨name, hname, rfl⟩ := advance_eq_some_iff.mp h1
    obtain ⟨form, hform, rfl⟩ := advance_eq_some_iff.mp h2
    obtain ⟨bs, hbs, rfl⟩ := ih hparse
    exact ⟨_, .cons hname hform hne hbs, by simp⟩

theorem parseAttributes_append {name form : List UInt8} (hname : Number u name)
    (hform : Number v form) (ptr : List UInt8) :
    parseAttributes (name ++ (form ++ ptr)) = if u = 0 ∧ v = 0 then some ([], ptr)
      else (parseAttributes ptr).map fun (as, ptr) => ((u, v) :: as, ptr) := by
  rw [parseAttributes]
  split
  next h => exact nomatch (hname.advance _).symm.trans h
  next h =>
    cases (hname.advance _).symm.trans h
    split
    next h => exact nomatch (hform.advance _).symm.trans h
    next h =>
      cases (hform.advance _).symm.trans h
      rfl

theorem Attributes.parseAttributes (h : Attributes bs) (ptr : List UInt8) :
    ∃ as, parseAttributes (bs ++ ptr) = some (as, ptr) := by
  induction h with
  | last hname hform =>
    rw [append_assoc, parseAttributes_append hname hform]
    exact ⟨[], if_pos ⟨rfl, rfl⟩⟩
  | cons hname hform hne _ ih =>
    obtain ⟨as, has⟩ := ih
    rw [append_assoc, append_assoc, parseAttributes_append hname hform, if_neg hne, has]
    exact ⟨_, rfl⟩

theorem parseAttributes_length (h : parseAttributes ptr = some (as, ptr')) :
    ptr'.length ≤ ptr.length := by
  obtain ⟨bs, _, rfl⟩ := attributes_of_parseAttributes h
  rw [length_append]
  exact Nat.le_add_left _ _

end

/-- What is printed of an abbreviation. -/
structure Abbrev where
  code : UInt32
  tag : UInt32
  hasChildren : UInt8
  attributes : List (UInt32 × UInt32)

/-- The outer loop, which ends at the end of the buffer or at the code 0. -/
def parseAbbrevs (ptr : List UInt8) : Option (List Abbrev) :=
  if ptr = [] then some []
  else
    match h₁ : advance ptr with
    | none => none
    | some (code, ptr₁) =>
      if code = 0 then some []
      else
        match h₂ : advance ptr₁ with
        | none => none
        | some (_, []) => none
        | some (tag, hasChildren :: ptr₂) =>
          match h₃ : parseAttributes ptr₂ with
          | none => none
          | some (attributes, ptr₃) =>
            have : ptr₃.length < ptr.length :=
              (parseAttributes_length h₃).trans_lt <| (Nat.lt_succ_self _).trans <|
                (advance_length h₂).trans (advance_length h₁)
            (parseAbbrevs ptr₃).map (⟨code, tag, hasChildren, attributes⟩ :: ·)
termination_by ptr.length

/-- What `parse_debug_abbrev` does. -/
inductive AbbrevResult
  /-- It returns before the table is looked at. -/
  | rejected
  /-- It has read a byte behind the end of its buffer. -/
  | outOfBounds
  | parsed (abbrevs : List Abbrev)

/-- `parse_debug_abbrev`, if `malloc` gives a buffer or not and `fread` has read `data`. -/
def parseDebugAbbrev (offset size : UInt32) (malloc : Bool) (data : List UInt8) : AbbrevResult :=
  if malloc = false then .rejected
  else if data.length ≠ (size - offset).toNat then .rejected
  else
    match parseAbbrevs data with
    | none => .outOfBounds
    | some abbrevs => .parsed abbrevs

/-- Only the buffer is read, and an offset behind the section is rejected. -/
def SafeAbbrev (offset size : UInt32) (malloc : Bool) (data : List UInt8) : Prop :=
  parseDebugAbbrev offset size malloc data ≠ .outOfBounds ∧
    (size < offset → parseDebugAbbrev offset size malloc data = .rejected)

/-- A table that ends with the code 0, or behind an abbreviation. -/
inductive Table : List UInt8 → Prop
  | nil : Table []
  | stop {code : List UInt8} (rest : List UInt8) (hcode : Number 0 code) : Table (code ++ rest)
  | entry {c t : UInt32} {code tag as rest : List UInt8} (hasChildren : UInt8)
      (hcode : Number c code) (hne : c ≠ 0) (htag : Number t tag) (has : Attributes as)
      (hrest : Table rest) : Table (code ++ (tag ++ hasChildren :: (as ++ rest)))

theorem table_of_parseAbbrevs {ptr : List UInt8} (h : parseAbbrevs ptr ≠ none) : Table ptr := by
  fun_induction parseAbbrevs ptr with
  | case1 => exact .nil
  | case2 | case4 | case5 | case6 => exact absurd rfl h
  | case3 _ _ _ h1 =>
    obtain ⟨code, hcode, rfl⟩ := advance_eq_some_iff.mp h1
    exact .stop _ hcode
  | case7 ptr _ c ptr1 h1 hc t hasChildren ptr2 h2 as ptr3 h3 _ ih =>
    obtain ⟨code, hcode, rfl⟩ := advance_eq_some_iff.mp h1
    obtain ⟨tag, htag, rfl⟩ := advance_eq_some_iff.mp h2
    obtain ⟨as, has, rfl⟩ := attributes_of_parseAttributes h3
    exact .entry hasChildren hcode hc htag has (ih fun hnone => h (by rw [hnone]; rfl))

theorem Table.parseAbbrevs {ptr : List UInt8} (h : Table ptr) : parseAbbrevs ptr ≠ none := by
  induction h with
  | nil =>
    rw [Dwarf.parseAbbrevs]
    exact nofun
  | stop rest hcode =>
    rw [Dwarf.parseAbbrevs]
    split_ifs
    · exact nofun
    · split
      next h => exact nomatch (hcode.advance _).symm.trans h
      next h =>
        cases (hcode.advance _).symm.trans h
        exact nofun
  | @entry _ _ _ _ _ rest hasChildren hcode hne htag has _ ih =>
    obtain ⟨as, has⟩ := has.parseAttributes rest
    rw [Dwarf.parseAbbrevs, if_neg (by simp)]
    split
    next h => exact nomatch (hcode.advance _).symm.trans h
    next h =>
      cases (hcode.advance _).symm.trans h
      rw [if_neg hne]
      split
      next h => exact nomatch (htag.advance _).symm.trans h
      next h => exact nomatch (htag.advance _).symm.trans h
      next h =>
        cases (htag.advance _).symm.trans h
        split
        next h => exact nomatch has.symm.trans h
        next h =>
          cases has.symm.trans h
          rwa [ne_eq, map_eq_none_iff]

/-- **The table is read inside of the buffer iff it is complete.** -/
theorem safeAbbrev_iff (offset size : UInt32) (malloc : Bool) (data : List UInt8) :
    SafeAbbrev offset size malloc data ↔
      (malloc = false ∨ data.length ≠ (size - offset).toNat) ∨ offset ≤ size ∧ Table data := by
  rw [SafeAbbrev, parseDebugAbbrev]
  by_cases hmalloc : malloc = false
  · simp [hmalloc]
  by_cases hread : data.length ≠ (size - offset).toNat
  · simp [hread]
  rw [show Table data ↔ parseAbbrevs data ≠ none from ⟨Table.parseAbbrevs, table_of_parseAbbrevs⟩]
  cases parseAbbrevs data <;> simp [hmalloc, hread]

/-- A section of one byte, in the middle of a number. -/
theorem not_safeAbbrev_truncated : ¬ SafeAbbrev 0 1 true [0x81] := by
  have hparse : parseAbbrevs [0x81] = none := by
    rw [parseAbbrevs]
    rfl
  intro h
  apply h.1
  rw [parseDebugAbbrev, hparse]
  rfl

end AthenX.Dwarf
