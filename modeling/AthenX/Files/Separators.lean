import AthenX.Files.Cwd
import AthenX.KHeap.Contents
import AthenX.Lib.Words

/-!
# Separators in paths

`remove_double_path_separators` copies a path into a new block and leaves out a separator if
the next character is one, too. What is left of a run of separators, `/` or `\`, is the last
one of it, so that the components of the path do not change, and a second call has nothing
left to do.
-/

namespace AthenX.Files

open KHeap CString Words

/-- No two separators stand next to each other. -/
def Single (s : List UInt8) : Prop :=
  s.IsChain fun c d => ¬(isSeparator c = true ∧ isSeparator d = true)

section

variable {c d : UInt8} {s : List UInt8}

/-! ### The loop -/

@[simp] theorem squeeze_nil : squeeze [] = [] := rfl

@[simp] theorem squeeze_singleton (c : UInt8) : squeeze [c] = [c] := by simp [squeeze]

theorem squeeze_cons_cons :
    squeeze (c :: d :: s) =
      if isSeparator c && isSeparator d then squeeze (d :: s) else c :: squeeze (d :: s) := rfl

theorem squeeze_eq_collapse (s : List UInt8) : squeeze s = collapse isSeparator s := by
  induction s with
  | nil => simp
  | cons c s ih =>
    cases s with
    | nil => simp
    | cons d s => rw [squeeze_cons_cons, collapse_cons_cons, ih]

theorem head_squeeze (s : List UInt8) :
    (squeeze s).head?.map isSeparator = s.head?.map isSeparator := by
  induction s with
  | nil => rfl
  | cons c s ih =>
    cases s with
    | nil => simp
    | cons d s =>
      rw [squeeze_cons_cons]
      split
      · next hsep =>
        rw [ih]
        simp only [Bool.and_eq_true] at hsep
        simp [hsep]
      · rfl

theorem squeeze_ne_nil (hs : s ≠ []) : squeeze s ≠ [] := by
  intro hnil
  have hhead := head_squeeze s
  rw [hnil] at hhead
  cases s with
  | nil => exact hs rfl
  | cons c s => simp at hhead

theorem single_squeeze (s : List UInt8) : Single (squeeze s) := by
  induction s with
  | nil => exact .nil
  | cons c s ih =>
    cases s with
    | nil => simp [Single]
    | cons d s =>
      rw [squeeze_cons_cons]
      split
      · exact ih
      · next hsep =>
        refine List.isChain_cons.mpr ⟨fun e he hce => hsep ?_, ih⟩
        have hhead := head_squeeze (d :: s)
        rw [he] at hhead
        simp only [Option.map_some, List.head?_cons, Option.some.injEq] at hhead
        rw [← hhead, hce.1, hce.2]
        rfl

theorem squeeze_of_single (hs : Single s) : squeeze s = s := by
  induction s with
  | nil => rfl
  | cons c s ih =>
    cases s with
    | nil => simp
    | cons d s =>
      rw [Single, List.isChain_cons_cons] at hs
      rw [squeeze_cons_cons, if_neg (by simpa using hs.1), ih hs.2]

theorem words_append_squeeze (s w : List UInt8) :
    words isSeparator (w ++ squeeze s) = words isSeparator (w ++ s) := by
  induction s generalizing w with
  | nil => rfl
  | cons c s ih =>
    have hkeep : words isSeparator (w ++ c :: squeeze s) = words isSeparator (w ++ c :: s) := by
      have happend := ih (w ++ [c])
      rwa [List.append_assoc, List.append_assoc] at happend
    unfold squeeze
    split
    · next hsep =>
      -- the separator is left out, and the next one parts the same words
      simp only [Bool.and_eq_true] at hsep
      cases s with
      | nil => simp at hsep
      | cons d s =>
        have hd : isSeparator d = true := by simpa using hsep.2
        rw [ih w, words_append_cons hd, words_append_cons hsep.1, words_cons hd]
    · exact hkeep

end

/-! ### The function -/

/-- The two functions on paths return if `malloc` does. -/
theorem mallocText_eq_some {a a' : Allocator} {m : Memory} {p r : UInt32} {s : List UInt8}
    {fuel : ℕ} (f : List UInt8 → List UInt8) (hp : p ≠ 0) (hs : Holds m p.toNat s) (hne : s ≠ [])
    (hmalloc : mallocInt fuel a (UInt32.ofNat (s.length + 1)) = some (a', r)) (hr : r ≠ 0)
    (hfuel : s.length < fuel) :
    mallocText f fuel a m p = some (a', poke m r.toNat (f s ++ [0]), r) := by
  have hempty : s.isEmpty = false := by simpa using hne
  unfold mallocText
  simp only [hp, if_false, text_eq_some hs hfuel, hempty, Bool.false_eq_true, Option.bind_eq_bind,
    Option.bind_some, hmalloc, hr]

theorem returns_removeDoublePathSeparators {a a' : Allocator} {m : Memory} {p r : UInt32}
    {s : List UInt8} (hp : p ≠ 0) (hs : Holds m p.toNat s) (hne : s ≠ [])
    (hmalloc : Returns (mallocInt · a (UInt32.ofNat (s.length + 1))) (a', r))
    (hr : r ≠ 0) :
    Returns (removeDoublePathSeparators · a m p) (a', poke m r.toNat (squeeze s ++ [0]), r) := by
  obtain ⟨fuel, hmalloc⟩ := hmalloc
  exact ⟨max fuel (s.length + 1), mallocText_eq_some squeeze hp hs hne
    (mallocInt_mono hmalloc (Nat.le_max_left _ _)) hr (by omega)⟩

/-- **`remove_double_path_separators`**, on a path that is not empty: no two separators are
adjacent, each run is replaced by its last one, the components are the same, and a second call
changes nothing. -/
theorem removeDoublePathSeparators_spec {a a₁ : Allocator} {m : Memory} {p r : UInt32}
    {s : List UInt8} (hp : p ≠ 0) (hs : Holds m p.toNat s) (hne : s ≠ [])
    (hmalloc : Returns (mallocInt · a (UInt32.ofNat (s.length + 1))) (a₁, r))
    (hr : r ≠ 0) :
    ∃ m₁ t, Returns (removeDoublePathSeparators · a m p) (a₁, m₁, r) ∧
      Holds m₁ r.toNat t ∧ Single t ∧ t = collapse isSeparator s ∧
      words isSeparator t = words isSeparator s ∧
      ∀ a₂ r₂, Returns (mallocInt · a₁ (UInt32.ofNat (t.length + 1))) (a₂, r₂) →
        r₂ ≠ 0 → ∃ m₂, Returns (removeDoublePathSeparators · a₁ m₁ r) (a₂, m₂, r₂) ∧
          Holds m₂ r₂.toNat t := by
  have hz : ∀ x ∈ squeeze s, x ≠ 0 := fun x hx => hs.ne_zero x (mem_of_mem_squeeze hx)
  have hholds : Holds (poke m r.toNat (squeeze s ++ [0])) r.toNat (squeeze s) := holds_poke hz
  refine ⟨_, squeeze s, returns_removeDoublePathSeparators hp hs hne hmalloc hr, hholds,
    single_squeeze s, squeeze_eq_collapse s, words_append_squeeze s [], ?_⟩
  intro a₂ r₂ hmalloc2 hr2
  have hagain := returns_removeDoublePathSeparators hr hholds (squeeze_ne_nil hne) hmalloc2 hr2
  rw [squeeze_of_single (single_squeeze s)] at hagain
  exact ⟨_, hagain, holds_poke hz⟩

/-- The path `a/\` becomes `a\`. -/
theorem removeDoublePathSeparators_spec_run :
    Holds (poke (fun _ => 0) 16 [97, slash, backslash, 0]) 16 [97, slash, backslash] ∧
    ∃ m₁, Returns (fun fuel => removeDoublePathSeparators fuel emptyAllocator
        (poke (fun _ => 0) 16 [97, slash, backslash, 0]) 16)
        (runCalls emptyAllocator [.malloc 4], m₁, 0x1400) ∧
      Holds m₁ 0x1400 [97, backslash] := by
  have hs : Holds (poke (fun _ => 0) 16 [97, slash, backslash, 0]) 16 [97, slash, backslash] :=
    holds_poke (s := [97, slash, backslash]) (by simp [slash, backslash])
  have hmalloc : Returns (mallocInt · emptyAllocator 4)
      (runCalls emptyAllocator [.malloc 4], 0x1400) := ⟨4, rfl⟩
  obtain ⟨m₁, t, hreturns, hholds, -, ht, -⟩ := removeDoublePathSeparators_spec (p := 16)
    (by decide) hs (by simp) hmalloc (by decide)
  have heq : t = [97, backslash] := ht.trans (squeeze_eq_collapse _).symm
  rw [heq] at hholds
  exact ⟨hs, m₁, hreturns, hholds⟩

end AthenX.Files
