import Mathlib

/-!
# The buffer of `printf`

`printf` of `drivers/display/printf.c` asks `realloc` for larger blocks until the text fits. If
there is none it prints from the stack and frees the block, and then the end of the function frees
it once more. A size of zero, that of an empty format, makes `realloc` free the block as well. The
blocks are numbered in the order they are obtained in.
-/

namespace AthenX.Printf

/-! ### The source -/

/-- What is done with a block. -/
inductive Event where
  | alloc (b : ℕ)
  | use (b : ℕ)
  | free (b : ℕ)

/-- `realloc` of the block `b`, with `new` for the next one. -/
def realloc (ok : Bool) (size : Int32) (b new : ℕ) : List Event × Option ℕ :=
  if size = 0 then ([.free b], none)
  else if ok then ([.alloc new, .use b, .use new, .free b], some new)
  else ([], none)

/-- The text fits: what `vsnprintf_` returns for a buffer, and the size of it. -/
def Fits (result : Int32 → Int32) (size : Int32) : Prop := 0 ≤ result size ∧ result size < size

instance (result : Int32 → Int32) (size : Int32) : Decidable (Fits result size) :=
  inferInstanceAs (Decidable (_ ∧ _))

/-- The loop of `printf` with the block `b`, and what comes behind it. -/
def printfLoop (result : Int32 → Int32) (ok : ℕ → Bool) : ℕ → ℕ → Int32 → Option (List Event)
  | 0, _, _ => none
  | k + 1, b, size =>
      -- `vsnprintf_`, `parse_ansi` and `memset`
      if Fits result size then some [.use b, .use b, .use b, .free b]
      else
        match realloc (ok (b + 1)) (size * 2) b (b + 1) with
        | (es, none) => some (.use b :: es ++ [.free b, .use b, .free b])
        | (es, some new) => (printfLoop result ok k new (size * 2)).map (.use b :: es ++ ·)

/-- `printf` for a format of `len` characters. -/
def printf (active : Bool) (len : Int32) (result : Int32 → Int32) (ok : ℕ → Bool) (fuel : ℕ) :
    Option (List Event) :=
  if active = true ∧ ok 0 = true then
    (printfLoop result ok fuel 0 (len * 1024)).map (.alloc 0 :: ·)
  else some []

/-! ### The blocks -/

/-- The blocks that are live after events, if none is used or freed that is not. -/
def check : List Event → List ℕ → Option (List ℕ)
  | [], live => some live
  | .alloc b :: es, live => check es (b :: live)
  | .use b :: es, live => if b ∈ live then check es live else none
  | .free b :: es, live => if b ∈ live then check es (live.erase b) else none

/-- A call returns, each of its blocks is freed once, and none is used after that. -/
def Released (active : Bool) (len : Int32) (result : Int32 → Int32) (ok : ℕ → Bool) : Prop :=
  ∃ fuel es, printf active len result ok fuel = some es ∧ check es [] = some []

/-- From the block `b` on there are larger ones until the text fits. -/
inductive Grows (result : Int32 → Int32) (ok : ℕ → Bool) : ℕ → Int32 → Prop
  | fits {b : ℕ} {size : Int32} : Fits result size → Grows result ok b size
  | grow {b : ℕ} {size : Int32} : size * 2 ≠ 0 → ok (b + 1) = true →
      Grows result ok (b + 1) (size * 2) → Grows result ok b size

variable {result : Int32 → Int32} {ok : ℕ → Bool}

theorem check_grow (b : ℕ) (es : List Event) :
    check (.use b :: [.alloc (b + 1), .use b, .use (b + 1), .free b] ++ es) [b] =
      check es [b + 1] := by
  simp [check]

theorem printfLoop_grow {k b : ℕ} {size : Int32} (hfits : ¬Fits result size) (hsize : size * 2 ≠ 0)
    (hok : ok (b + 1) = true) : printfLoop result ok (k + 1) b size =
      (printfLoop result ok k (b + 1) (size * 2)).map
        (.use b :: [.alloc (b + 1), .use b, .use (b + 1), .free b] ++ ·) := by
  rw [printfLoop, if_neg hfits, realloc, if_neg hsize, if_pos hok]

theorem grows_of_check {k b : ℕ} {size : Int32} {es : List Event}
    (h : printfLoop result ok k b size = some es) (hes : check es [b] = some []) :
    Grows result ok b size := by
  induction k generalizing b size es with
  | zero => cases h
  | succ k ih =>
    by_cases hfits : Fits result size
    · exact .fits hfits
    by_cases hzero : size * 2 = 0
    -- the block is freed and used again
    · rw [printfLoop, if_neg hfits, realloc, if_pos hzero] at h
      cases h
      simp [check] at hes
    by_cases hok : ok (b + 1) = true
    · rw [printfLoop_grow hfits hzero hok] at h
      obtain ⟨es, hloop, rfl⟩ := Option.map_eq_some_iff.mp h
      rw [check_grow] at hes
      exact .grow hzero hok (ih hloop hes)
    · rw [printfLoop, if_neg hfits, realloc, if_neg hzero, if_neg hok] at h
      cases h
      simp [check] at hes

theorem check_of_grows {b : ℕ} {size : Int32} (h : Grows result ok b size) :
    ∃ k es, printfLoop result ok k b size = some es ∧ check es [b] = some [] := by
  induction h with
  | @fits b size hfits => exact ⟨1, _, if_pos hfits, by simp [check]⟩
  | @grow b size hsize hok _ ih =>
    by_cases hfits : Fits result size
    · exact ⟨1, _, if_pos hfits, by simp [check]⟩
    obtain ⟨k, es, hloop, hes⟩ := ih
    refine ⟨k + 1, _, ?_, (check_grow b es).trans hes⟩
    rw [printfLoop_grow hfits hsize hok, hloop]
    rfl

theorem released_iff_check {active : Bool} {len : Int32} (hactive : active = true)
    (hok : ok 0 = true) : Released active len result ok ↔ Grows result ok 0 (len * 1024) := by
  constructor
  · rintro ⟨fuel, es, h, hes⟩
    rw [printf, if_pos ⟨hactive, hok⟩] at h
    obtain ⟨es, hloop, rfl⟩ := Option.map_eq_some_iff.mp h
    exact grows_of_check hloop hes
  · intro h
    obtain ⟨k, es, hloop, hes⟩ := check_of_grows h
    exact ⟨k, _, by rw [printf, if_pos ⟨hactive, hok⟩, hloop]; rfl, hes⟩

/-- **The block of `printf` is freed once** if and only if there is none, or a larger one each time
the text does not fit. -/
theorem printf_released_iff (active : Bool) (len : Int32) :
    Released active len result ok ↔
      active = false ∨ ok 0 = false ∨ Grows result ok 0 (len * 1024) := by
  by_cases h : active = true ∧ ok 0 = true
  · rw [released_iff_check h.1 h.2, h.1, h.2]
    simp
  · have hnone : Released active len result ok := ⟨0, [], if_neg h, rfl⟩
    refine iff_of_true hnone ?_
    cases active with
    | false => exact .inl rfl
    | true => exact .inr (.inl (Bool.eq_false_iff.mpr fun hok => h ⟨rfl, hok⟩))

/-- A format without a character. -/
theorem not_released_empty : ¬Released true 0 (fun _ => 0) fun _ => true := by
  rw [released_iff_check rfl rfl]
  rintro (h | ⟨h, -⟩)
  · exact absurd h (by decide)
  · exact h rfl

end AthenX.Printf
