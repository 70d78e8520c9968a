import AthenX.Console.Terminal
import AthenX.Lib.CString
import AthenX.Lib.LineEdit

/-!
# Reading a line

`fgets` of `drivers/VFS/file.c`, for the standard input, and `get_password` of `kernel/GUI/login.c`.
The loops are the same, but for what they print. They move `s` along with the text and count the
characters as well, so the zero at `s[count]` is as far behind the end of the text as the text is
long, and what is returned is the end. `getch_` waits for a positive key.
-/

namespace AthenX.Console

open CString LineEdit List
open Vesa (newline backspace)

/-! ### The source -/

/-- The variables of the loop, with what is printed and the addresses written to. -/
structure Editor where
  mem : Memory
  s : ℕ
  count : ℕ
  shown : List Int8
  written : List ℕ

/-- `*p = ch`. -/
def Editor.store (e : Editor) (p : ℕ) (ch : Int8) : Editor :=
  { e with mem := Function.update e.mem p ch.toUInt8, written := p :: e.written }

/-- The body of the loop. -/
def Editor.key (echo : Int8 → Int8) (e : Editor) (ch : Int8) : Editor :=
  if ch = backspace then
    if 0 < e.count then
      let e := e.store e.s 0
      let e := { e with s := e.s - 1 }
      let e := e.store e.s 0
      { e with count := e.count - 1, shown := e.shown ++ [backspace] }
    else e
  else
    let e := { e with shown := e.shown ++ [echo ch] }
    let e := e.store e.s ch
    { e with s := e.s + 1, count := e.count + 1 }

/-- The loop. It waits for ever when the keys are used up. -/
def readKeys (echo : Int8 → Int8) (n : ℕ) : List Int8 → Editor → Option Editor
  | [], _ => none
  | ch :: keys, e =>
      -- `getch_` does not return such a character
      if ch ≤ 0 then readKeys echo n keys e
      else if 0 < ch ∧ ch ≠ newline ∧ ch ≠ -1 ∧ e.count < n - 1 then
        readKeys echo n keys (e.key echo ch)
      else some e

/-- The two functions, which differ in what they print for a character. -/
def readLine (echo : Int8 → Int8) (m : Memory) (s n : ℕ) (keys : List Int8) : Option Editor :=
  (readKeys echo n keys ⟨m, s, 0, [], []⟩).map fun e => e.store (e.s + e.count) 0

/-- `fgets`, for the standard input. The result is the last value of `s`. -/
def fgets (m : Memory) (s n : ℕ) (keys : List Int8) : Option Editor := readLine id m s n keys

/-- `get_password`. -/
def getPassword (m : Memory) (s n : ℕ) (keys : List Int8) : Option Editor :=
  readLine (fun _ => 42) m s n keys

/-! ### The property -/

variable {s n : ℕ} {text keys : List Int8} {ch : Int8} {e : Editor} {echo : Int8 → Int8}

/-- The keys that `getch_` passes on. -/
def received (keys : List Int8) : List Int8 := keys.filter fun ch => 0 < ch

theorem received_of_le (h : ch ≤ 0) : received (ch :: keys) = received keys :=
  filter_cons_of_neg (by simpa using h)

theorem received_of_lt (h : 0 < ch) : received (ch :: keys) = ch :: received keys :=
  filter_cons_of_pos (by simpa using h)

/-- The newline is not among the keys that `getch_` keeps back. -/
theorem newline_ne_of_le (h : ch ≤ 0) : newline ≠ ch := by
  rintro rfl
  exact absurd h (by decide)

theorem ne_eof_of_lt (h : 0 < ch) : ch ≠ -1 := by
  rintro rfl
  exact absurd h (by decide)

/-- The line that the editor makes of the keys, in a buffer of `n` bytes. -/
def lineOf (n : ℕ) (keys : List Int8) : List Int8 :=
  line newline backspace (n - 1) [] (received keys)

/-- **The call** returns its argument, with the line in the buffer, and writes nowhere else. -/
structure Right (s n : ℕ) (keys : List Int8) (e : Editor) : Prop where
  result : e.s = s
  line : Holds e.mem s ((lineOf n keys).map Int8.toUInt8)
  inside : ∀ p ∈ e.written, s ≤ p ∧ p < s + n

/-! ### The loop -/

/-- The loop has got the text so far. -/
structure Types (s n : ℕ) (text : List Int8) (e : Editor) : Prop where
  pointer : e.s = s + text.length
  count : e.count = text.length
  inside : ∀ p ∈ e.written, s ≤ p ∧ p < s + n

/-- **One key.** -/
theorem Types.key (h : Types s n text e) (hn : text.length < n - 1) :
    Types s n (press backspace text ch) (e.key echo ch) := by
  obtain ⟨hs, hcount, hin⟩ := h
  unfold Editor.key press
  split
  · split
    · next hpos =>
      refine ⟨?_, ?_, ?_⟩
      · simp only [Editor.store, length_dropLast]
        omega
      · simp only [Editor.store, length_dropLast]
        omega
      · intro p hp
        simp only [Editor.store, mem_cons] at hp
        rcases hp with rfl | rfl | hp
        · omega
        · omega
        · exact hin p hp
    · next hzero =>
      have hnil : text = [] := length_eq_zero_iff.mp (by omega)
      rw [hnil] at hs hcount ⊢
      exact ⟨hs, hcount, hin⟩
  · refine ⟨?_, ?_, ?_⟩
    · simp only [Editor.store, length_append, length_singleton]
      omega
    · simp only [Editor.store, length_append, length_singleton]
      omega
    · intro p hp
      simp only [Editor.store, mem_cons] at hp
      rcases hp with rfl | hp
      · omega
      · exact hin p hp

/-- **The loop** ends with the line, if there is a newline. -/
theorem Types.readKeys (echo : Int8 → Int8) (h : Types s n text e) (hnl : newline ∈ keys) :
    ∃ e', Console.readKeys echo n keys e = some e' ∧
      Types s n (line newline backspace (n - 1) text (received keys)) e' := by
  induction keys generalizing text e with
  | nil => simp at hnl
  | cons ch keys ih =>
    rw [Console.readKeys]
    by_cases hch : ch ≤ 0
    · rw [if_pos hch, received_of_le hch]
      exact ih h ((mem_cons.mp hnl).resolve_left (newline_ne_of_le hch))
    · have hpos : 0 < ch := by simpa using hch
      have hiff : (0 < ch ∧ ch ≠ newline ∧ ch ≠ -1 ∧ e.count < n - 1) ↔
          (ch ≠ newline ∧ text.length < n - 1) := by
        rw [h.count]
        simp [hpos, ne_eof_of_lt hpos]
      rw [if_neg hch, received_of_lt hpos, line]
      simp only [hiff]
      split
      · next hgo => exact ih (h.key hgo.2) ((mem_cons.mp hnl).resolve_left hgo.1.symm)
      · exact ⟨e, rfl, h⟩

/-- **The call.**  The zero goes behind the line, and as far again. -/
theorem readLine_spec (echo : Int8 → Int8) (m : Memory) (s : ℕ) (hnl : newline ∈ keys) :
    ∃ e, Types s n (lineOf n keys) e ∧
      readLine echo m s n keys = some (e.store (s + 2 * (lineOf n keys).length) 0) := by
  have hstart : Types s n [] ⟨m, s, 0, [], []⟩ := ⟨rfl, rfl, by simp⟩
  obtain ⟨e, he, h⟩ := hstart.readKeys echo hnl
  have hend : e.s + e.count = s + 2 * (lineOf n keys).length := by
    rw [h.pointer, h.count, lineOf]
    omega
  exact ⟨e, h, by rw [readLine, he, ← hend]; rfl⟩

theorem Types.inside_iff (h : Types s n text e) :
    (∀ p ∈ (e.store (s + 2 * text.length) 0).written, s ≤ p ∧ p < s + n) ↔ 2 * text.length < n := by
  simp only [Editor.store, forall_mem_cons, and_iff_left h.inside]
  omega

theorem Types.right_iff_nil (h : Types s n (lineOf n keys) e) (hn : 2 ≤ n) :
    Right s n keys (e.store (s + 2 * (lineOf n keys).length) 0) ↔ lineOf n keys = [] := by
  constructor
  · intro hright
    have hs : e.s = s := hright.result
    have := h.pointer
    exact length_eq_zero_iff.mp (by omega)
  · intro hnil
    refine ⟨?_, ?_, h.inside_iff.mpr ?_⟩
    · have hs := h.pointer
      rw [hnil] at hs
      exact hs
    · rw [hnil]
      exact Function.update_self s _ e.mem
    · rw [hnil, length_nil]
      omega

/-- What a call does: right if the line is empty, and inside the buffer if it fits twice. -/
def Outcome (s n : ℕ) (keys : List Int8) (e : Editor) : Prop :=
  (Right s n keys e ↔ lineOf n keys = []) ∧
    ((∀ p ∈ e.written, s ≤ p ∧ p < s + n) ↔ 2 * (lineOf n keys).length < n)

theorem outcome_readLine (echo : Int8 → Int8) (m : Memory) (s : ℕ) (hn : 2 ≤ n)
    (hnl : newline ∈ keys) : ∃ e, readLine echo m s n keys = some e ∧ Outcome s n keys e := by
  obtain ⟨e, h, he⟩ := readLine_spec echo m s hnl
  exact ⟨_, he, h.right_iff_nil hn, h.inside_iff⟩

/-- **When `fgets` and `get_password` are right**: if and only if the line is empty. A line of half
the buffer or more takes the zero out of it. -/
theorem outcome_of_newline (m : Memory) (s : ℕ) {n : ℕ} (hn : 2 ≤ n) (keys : List Int8) :
    (∃ e, fgets m s n (keys ++ [newline]) = some e ∧ Outcome s n (keys ++ [newline]) e) ∧
    ∃ e, getPassword m s n (keys ++ [newline]) = some e ∧ Outcome s n (keys ++ [newline]) e :=
  ⟨outcome_readLine id m s hn (by simp), outcome_readLine _ m s hn (by simp)⟩

/-- A character, a key that `getch_` drops, a backspace and a newline, for eight bytes. -/
theorem right_backspace :
    (∃ e, fgets (fun _ => 7) 4096 8 [97, -3, backspace, newline] = some e ∧
      Right 4096 8 [97, -3, backspace, newline] e) ∧
    ∃ e, getPassword (fun _ => 7) 4096 8 [97, -3, backspace, newline] = some e ∧
      Right 4096 8 [97, -3, backspace, newline] e := by
  have hnil : lineOf 8 ([97, -3, backspace] ++ [newline]) = [] := by decide
  obtain ⟨⟨e, he, hiff⟩, e', he', hiff'⟩ :=
    outcome_of_newline (fun _ => 7) 4096 (n := 8) (by decide) [97, -3, backspace]
  exact ⟨⟨e, he, hiff.1.mpr hnil⟩, e', he', hiff'.1.mpr hnil⟩

/-- One character and a newline: both calls return the address behind it. -/
theorem not_right_character :
    (∃ e, fgets (fun _ => 7) 4096 8 [97, newline] = some e ∧ ¬Right 4096 8 [97, newline] e) ∧
    ∃ e, getPassword (fun _ => 7) 4096 8 [97, newline] = some e ∧
      ¬Right 4096 8 [97, newline] e := by
  refine ⟨⟨_, rfl, fun h => ?_⟩, _, rfl, fun h => ?_⟩
  · exact absurd h.result (by decide)
  · exact absurd h.result (by decide)

end AthenX.Console
