import AthenX.Debug.Lookup

/-!
# Stack traces

`isr_exception_handler` of `arch/i686/isr.c` and `unwind_stack` of `kernel/debug/debug.c`. For an
exception the handler walks up at most `MAX_FRAMES` frames, looks up each return address, and
appends what it finds to `found_functions`, whose count nothing sets back. The next exception comes
on top; the eleventh one is a panic.
-/

namespace AthenX.Debug

open Scan List

/-! ### The source -/

/-- `MAX_FRAMES`: the frames of a trace and the size of the table. -/
def maxFrames : ℕ := 100

/-- `MAX_EXCEPTIONS`. -/
def maxExceptions : ℕ := 10

/-- `FunctionInfo`. -/
structure FunctionInfo where
  record : Record
  eip : UInt32
  isError : Bool

/-- `found_functions` and `num_found_functions`, with the stores behind the end. -/
structure Table where
  foundFunctions : ℕ → Option FunctionInfo
  numFoundFunctions : ℕ

namespace Table

/-- The table after the boot. -/
def empty : Table := ⟨fun _ => none, 0⟩

/-- `found_functions[num_found_functions] = *info; num_found_functions++`. -/
def store (t : Table) (info : FunctionInfo) : Table :=
  ⟨Function.update t.foundFunctions t.numFoundFunctions (some info), t.numFoundFunctions + 1⟩

/-- What the table holds. -/
def entries (t : Table) : List (Option FunctionInfo) :=
  (List.range t.numFoundFunctions).map t.foundFunctions

end Table

/-- An exception. -/
structure Exception where
  eip : UInt32
  ebp : UInt32
  /-- The word at an address. -/
  stack : UInt32 → UInt32
  /-- The frames for which `find_function` gets memory for its copy of the map. -/
  copied : ℕ → Bool

section

variable (debugMap : Text)

/-- The lookup for a frame. -/
def frameInfo (e : Exception) (frame : ℕ) (eip : UInt32) : Option Record :=
  if e.copied frame then findFunction kernel debugMap eip.toNat else none

/-- What is found is recorded, unless it is `_start`. -/
def recordFrame (info : Option Record) (eip : UInt32) (firstFrame : Bool) (t : Table) : Table :=
  match info with
  | some r => if r.name = "_start".toList then t else t.store ⟨r, eip, firstFrame⟩
  | none => t

/-- The loop of `unwind_stack`, with the number of frames that are left. -/
def unwindLoop (e : Exception) : ℕ → ℕ → Bool → UInt32 → UInt32 → Table → Table
  | 0, _, _, _, _, t => t
  | left + 1, frame, firstFrame, eip, ebp, t =>
      let info := frameInfo debugMap e frame eip
      let t := recordFrame info eip firstFrame t
      if ebp = 0 ∨ ebp ≤ eip then t
      else unwindLoop e left (frame + 1) (firstFrame && info.isNone) (e.stack (ebp + 4))
        (e.stack ebp) t

/-- `unwind_stack`. -/
def unwindStack (e : Exception) (t : Table) : Table :=
  unwindLoop debugMap e maxFrames 0 true e.eip e.ebp t

/-- `isr_exception_handler`: the number of exceptions so far, and the table. -/
def isrExceptionHandler (s : ℕ × Table) (e : Exception) : ℕ × Table :=
  if s.1 < maxExceptions then (s.1 + 1, unwindStack debugMap e s.2) else s

/-- The exceptions since the boot, one after the other. -/
def handleAll (es : List Exception) : ℕ × Table :=
  es.foldl (isrExceptionHandler debugMap) (0, Table.empty)

/-! ### The property -/

/-- The entries that a trace appends. -/
def recorded (e : Exception) : List (Option FunctionInfo) :=
  (unwindStack debugMap e Table.empty).entries

/-- All stores are inside of the array. -/
def Inside (es : List Exception) : Prop := (handleAll debugMap es).2.numFoundFunctions ≤ maxFrames

/-- All stores have been inside, and the table holds what the last trace has found only. -/
def Intact (es : List Exception) : Prop :=
  ∀ before e, before ++ [e] <+: es → before.length < maxExceptions →
    Inside debugMap (before ++ [e]) ∧
      (handleAll debugMap (before ++ [e])).2.entries = recorded debugMap e

/-- The addresses that the links from `ebp` on lead to, the first one included. -/
def returnAddresses (stack : UInt32 → UInt32) : ℕ → UInt32 → UInt32 → List UInt32
  | 0, _, _ => []
  | left + 1, eip, ebp =>
      eip :: if ebp = 0 ∨ ebp ≤ eip then []
        else returnAddresses stack left (stack (ebp + 4)) (stack ebp)

/-- The map has no function for the address of a frame but `_start`, or there is no copy of it. -/
def Unnamed (e : Exception) (frame : ℕ) (eip : UInt32) : Prop :=
  ∀ r, frameInfo debugMap e frame eip = some r → r.name = "_start".toList

/-! ### One trace -/

variable {debugMap} {e : Exception} {es before : List Exception} {t : Table}

@[simp] theorem entries_empty : Table.empty.entries = [] := rfl

@[simp] theorem length_entries (t : Table) : t.entries.length = t.numFoundFunctions := by
  rw [Table.entries, List.length_map, List.length_range]

theorem entries_store (t : Table) (info : FunctionInfo) :
    (t.store info).entries = t.entries ++ [some info] := by
  simp only [Table.entries, Table.store, range_succ, map_append, map_singleton,
    Function.update_self]
  congr 1
  refine map_congr_left fun i hi => Function.update_of_ne ?_ _ _
  exact Nat.ne_of_lt (mem_range.mp hi)

theorem forall_getElem?_cons {α : Type*} {p : ℕ → α → Prop} {x : α} {l : List α} :
    (∀ k a, (x :: l)[k]? = some a → p k a) ↔ p 0 x ∧ ∀ k a, l[k]? = some a → p (k + 1) a := by
  refine ⟨fun h => ⟨h 0 x rfl, fun k a ha => h (k + 1) a ha⟩, fun h k a ha => ?_⟩
  cases k with
  | zero => cases ha; exact h.1
  | succ k => exact h.2 k a ha

theorem entries_recordFrame (info : Option Record) (eip : UInt32) (firstFrame : Bool) :
    ∃ l, l.length ≤ 1 ∧ (l = [] ↔ ∀ r, info = some r → r.name = "_start".toList) ∧
      ∀ t, (recordFrame info eip firstFrame t).entries = t.entries ++ l := by
  cases info with
  | none => exact ⟨[], Nat.zero_le 1, by simp, fun t => (append_nil _).symm⟩
  | some r =>
    by_cases hr : r.name = "_start".toList
    · refine ⟨[], Nat.zero_le 1, by simp [hr], fun t => ?_⟩
      rw [recordFrame, if_pos hr, append_nil]
    · refine ⟨[some ⟨r, eip, firstFrame⟩], le_refl 1, by simpa using hr, fun t => ?_⟩
      rw [recordFrame, if_neg hr, entries_store]

theorem entries_unwindLoop (debugMap : Text) (e : Exception) :
    ∀ (left frame : ℕ) (firstFrame : Bool) (eip ebp : UInt32), ∃ l, l.length ≤ left ∧
      (l = [] ↔ ∀ k a, (returnAddresses e.stack left eip ebp)[k]? = some a →
        Unnamed debugMap e (frame + k) a) ∧
      ∀ t, (unwindLoop debugMap e left frame firstFrame eip ebp t).entries = t.entries ++ l := by
  intro left
  induction left with
  | zero =>
    exact fun frame firstFrame eip ebp =>
      ⟨[], le_refl 0, by simp [returnAddresses], fun t => (append_nil _).symm⟩
  | succ left ih =>
    intro frame firstFrame eip ebp
    obtain ⟨l, hlen, hnil, hl⟩ :=
      entries_recordFrame (frameInfo debugMap e frame eip) eip firstFrame
    by_cases hstop : ebp = 0 ∨ ebp ≤ eip
    · refine ⟨l, by omega, ?_, fun t => ?_⟩
      · rw [hnil, returnAddresses, if_pos hstop, forall_getElem?_cons]
        simp [Unnamed]
      · rw [unwindLoop, if_pos hstop, hl]
    · obtain ⟨l', hlen', hnil', hl'⟩ := ih (frame + 1)
        (firstFrame && (frameInfo debugMap e frame eip).isNone) (e.stack (ebp + 4)) (e.stack ebp)
      refine ⟨l ++ l', by rw [length_append]; omega, ?_, fun t => ?_⟩
      · rw [append_eq_nil_iff, hnil, hnil', returnAddresses, if_neg hstop, forall_getElem?_cons]
        simp only [Unnamed, Nat.add_zero, Nat.add_assoc, Nat.add_comm 1]
      · rw [unwindLoop, if_neg hstop, hl', hl, append_assoc]

theorem entries_unwindStack (debugMap : Text) (e : Exception) (t : Table) :
    (unwindStack debugMap e t).entries = t.entries ++ recorded debugMap e := by
  obtain ⟨l, -, -, hl⟩ := entries_unwindLoop debugMap e maxFrames 0 true e.eip e.ebp
  rw [recorded, unwindStack, unwindStack, hl, hl, entries_empty, nil_append]

theorem recorded_eq_nil_iff (debugMap : Text) (e : Exception) : recorded debugMap e = [] ↔
    ∀ frame a, (returnAddresses e.stack maxFrames e.eip e.ebp)[frame]? = some a →
      Unnamed debugMap e frame a := by
  obtain ⟨l, -, hnil, hl⟩ := entries_unwindLoop debugMap e maxFrames 0 true e.eip e.ebp
  rw [recorded, unwindStack, hl, entries_empty, nil_append, hnil]
  simp only [Nat.zero_add]

/-! ### All traces -/

theorem handleAll_concat (es : List Exception) (e : Exception) :
    handleAll debugMap (es ++ [e]) = isrExceptionHandler debugMap (handleAll debugMap es) e := by
  rw [handleAll, foldl_append]
  rfl

theorem handleAll_fst (es : List Exception) :
    (handleAll debugMap es).1 = min es.length maxExceptions := by
  induction es using List.reverseRecOn with
  | nil => rfl
  | append_singleton es e ih =>
    rw [handleAll_concat, isrExceptionHandler, length_append, length_singleton]
    split <;> simp only [ih] at * <;> omega

theorem entries_handleAll (es : List Exception) :
    (handleAll debugMap es).2.entries = (es.take maxExceptions).flatMap (recorded debugMap) := by
  induction es using List.reverseRecOn with
  | nil => rfl
  | append_singleton es e ih =>
    rw [handleAll_concat, isrExceptionHandler, handleAll_fst]
    by_cases hlt : es.length < maxExceptions
    · rw [if_pos (by omega), entries_unwindStack, ih, take_of_length_le (by omega),
        take_of_length_le (by simp; omega), flatMap_append, flatMap_singleton]
    · rw [if_neg (by omega), ih, take_append_of_le_length (by omega)]

theorem entries_handleAll_concat (debugMap : Text) (e : Exception)
    (hlt : before.length < maxExceptions) :
    (handleAll debugMap (before ++ [e])).2.entries =
      before.flatMap (recorded debugMap) ++ recorded debugMap e := by
  rw [entries_handleAll, take_of_length_le (by simp; omega), flatMap_append, flatMap_singleton]

/-- **The table is intact if and only if** no frame of a trace but the last one has a name. -/
theorem intact_iff (debugMap : Text) (es : List Exception) : Intact debugMap es ↔
    ∀ i e, es[i]? = some e → i + 1 < es.length → i + 1 < maxExceptions →
      ∀ frame a, (returnAddresses e.stack maxFrames e.eip e.ebp)[frame]? = some a →
        Unnamed debugMap e frame a := by
  simp only [← recorded_eq_nil_iff]
  constructor
  · intro hintact i e he hlast hmax
    have hpre : es.take (i + 1) ++ [es[i + 1]] <+: es := by
      rw [take_append_getElem hlast]
      exact take_prefix (i + 1 + 1) es
    have hlen : (es.take (i + 1)).length = i + 1 := length_take_of_le (by omega)
    -- the table before the next trace is empty
    have hentries := (hintact _ _ hpre (by omega)).2
    rw [entries_handleAll_concat _ _ (by omega), append_left_eq_self, flatMap_eq_nil_iff]
      at hentries
    refine hentries e (mem_of_getElem? (i := i) ?_)
    rwa [List.getElem?_take_of_lt (by omega)]
  · intro hempty before e hpre hlt
    have hle : before.length + 1 ≤ es.length := by simpa using hpre.length_le
    have hnil : before.flatMap (recorded debugMap) = [] := by
      rw [flatMap_eq_nil_iff]
      intro b hb
      obtain ⟨i, hi, rfl⟩ := getElem_of_mem hb
      refine hempty i _ ?_ (by omega) (by omega)
      obtain ⟨rest, rfl⟩ := hpre
      rw [append_assoc, List.getElem?_append_left hi, List.getElem?_eq_getElem hi]
    have hentries := entries_handleAll_concat debugMap e hlt
    rw [hnil, nil_append] at hentries
    refine ⟨?_, hentries⟩
    obtain ⟨l, hlen, -, hl⟩ := entries_unwindLoop debugMap e maxFrames 0 true e.eip e.ebp
    rw [Inside, ← length_entries, hentries, recorded, unwindStack, hl]
    exact hlen

/-! ### A stack that does not end -/

/-- A frame that is its own caller is recorded until the frames run out. -/
theorem length_entries_loop {eip ebp : UInt32} {r : Record} (hr : r.name ≠ "_start".toList)
    (hfind : ∀ frame, frameInfo debugMap e frame eip = some r) (hebp : ¬(ebp = 0 ∨ ebp ≤ eip))
    (heip : e.stack (ebp + 4) = eip) (hself : e.stack ebp = ebp) :
    ∀ (left frame : ℕ) (firstFrame : Bool) (t : Table),
      (unwindLoop debugMap e left frame firstFrame eip ebp t).entries.length =
        t.entries.length + left := by
  intro left
  induction left with
  | zero => exact fun frame firstFrame t => rfl
  | succ left ih =>
    intro frame firstFrame t
    rw [unwindLoop, if_neg hebp, heip, hself, ih, hfind, recordFrame, if_neg hr, entries_store,
      length_append, length_singleton]
    omega

end

/-- One function. -/
def oneLine : Text := "10:k.c:f:void:1".toList

/-- A frame at `0x1000` that is its own caller. -/
def endless : Exception := ⟨0x10, 0x1000, fun a => if a = 0x1004 then 0x10 else 0x1000,
  fun _ => true⟩

theorem length_recorded_endless : (recorded oneLine endless).length = 100 := by
  have hmap : findFunction kernel oneLine 16 =
      some ⟨16, "k.c".toList, "f".toList, "void".toList, 1⟩ := by
    decide
  have hfind : ∀ frame, frameInfo oneLine endless frame 0x10 =
      some ⟨16, "k.c".toList, "f".toList, "void".toList, 1⟩ := fun frame => hmap
  have hebp : ¬((0x1000 : UInt32) = 0 ∨ (0x1000 : UInt32) ≤ 0x10) := by decide
  exact length_entries_loop (by decide) hfind hebp rfl rfl 100 0 true Table.empty

/-- With two such traces half of the stores are behind the array. -/
theorem not_intact_endless : ¬Inside oneLine [endless, endless] ∧
    ¬Intact oneLine [endless, endless] := by
  have hlen := length_recorded_endless
  constructor
  · rw [Inside, ← length_entries, entries_handleAll]
    simp only [maxExceptions, maxFrames, take_succ_cons, flatMap_cons, length_append]
    omega
  · intro hintact
    have hentries := (hintact [endless] endless prefix_rfl (by decide)).2
    have := congrArg List.length hentries
    rw [entries_handleAll_concat _ _ (by decide)] at this
    simp [hlen] at this

end AthenX.Debug
