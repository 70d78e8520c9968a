import AthenX.Console.Terminal
import AthenX.Lib.LineEdit

/-!
# Filling the buffer of `scanf`

`fill_buffer` of `libc/scanf.c` reads a line. A backspace takes the index back by one whatever it
is, so one on an empty line puts it in front of the buffer, where the next store goes. When the
buffer is full the loop ends with the next character, which is lost, as is what comes behind it.
-/

namespace AthenX.Scanf

open LineEdit List Function
open Vesa (newline backspace)

/-! ### The source -/

/-- `BUFFER_SIZE`. -/
def bufferSize : ℕ := 1000

/-- The variables of `fill_buffer`, with what is printed and the indices of the stores. The bytes in
front of the buffer have negative indices. -/
structure Filling where
  buffer : ℤ → Int8
  index : ℤ
  shown : List Int8
  stores : List ℤ

/-- `buffer[index] = c`. -/
def Filling.store (f : Filling) (c : Int8) : Filling :=
  { f with buffer := update f.buffer f.index c, stores := f.index :: f.stores }

/-- The body of the loop. -/
def Filling.key (f : Filling) (c : Int8) : Filling :=
  let f := { f with shown := f.shown ++ [c] }
  if c ≠ backspace then { f.store c with index := f.index + 1 }
  else { f.store 0 with index := f.index - 1 }

/-- The loop, on what `getchar` returns. It waits for ever when there is nothing more. -/
def fillKeys : List Int8 → Filling → Option Filling
  | [], _ => none
  | c :: keys, f =>
      -- `EOF` is -1
      if c ≠ newline ∧ c ≠ -1 ∧ f.index < bufferSize - 1 then fillKeys keys (f.key c) else some f

/-- `fill_buffer`. The result is the index. -/
def fillBuffer (buffer : ℤ → Int8) (keys : List Int8) : Option Filling :=
  (fillKeys keys ⟨buffer, 0, [], []⟩).map fun f => f.store 0

/-! ### The property -/

/-- The first `n` bytes of the buffer. -/
def Filling.front (f : Filling) (n : ℕ) : List Int8 := (range n).map fun i : ℕ => f.buffer i

/-- **The call** stores inside of the buffer, and the edited line is there with a zero behind it. -/
structure Right (keys : List Int8) (f : Filling) : Prop where
  inside : ∀ i ∈ f.stores, 0 ≤ i ∧ i ≤ bufferSize - 1
  line : edit newline backspace [] keys ++ [0] <+: f.front bufferSize

/-- As long as the loop goes on, no backspace comes when the text is empty. -/
def Steady : List Int8 → List Int8 → Prop
  | _, [] => True
  | text, c :: keys => text.length < bufferSize - 1 →
      (c = backspace → text ≠ []) ∧ Steady (press backspace text c) keys

/-- What the loop makes of the keys. It ends when the buffer is full. -/
def held (text keys : List Int8) : List Int8 := line newline backspace (bufferSize - 1) text keys

/-! ### One key -/

variable {f f' : Filling} {text keys : List Int8} {c e : Int8} {n : ℕ}

theorem front_store (h : n ≤ f.index) : (f.store c).front n = f.front n := by
  refine map_congr_left fun i hi => update_of_ne ?_ _ _
  have hlt := mem_range.mp hi
  omega

theorem front_succ : f.front (n + 1) = f.front n ++ [f.buffer n] := by
  simp [Filling.front, range_succ]

theorem front_isPrefix {k : ℕ} (h : k ≤ n) : f.front k <+: f.front n := by
  have htake : f.front k = (f.front n).take k := by
    rw [Filling.front, Filling.front, ← map_take, take_range, Nat.min_eq_left h]
  rw [htake]
  exact take_prefix k _

/-- The loop has got the text so far. -/
structure Filled (text : List Int8) (f : Filling) : Prop where
  index : f.index = text.length
  front : f.front text.length = text
  inside : ∀ i ∈ f.stores, 0 ≤ i ∧ i ≤ bufferSize - 1

/-- A store behind the text. -/
theorem Filled.store (h : Filled text f) (hlen : text.length ≤ bufferSize - 1) :
    (f.store c).front (text.length + 1) = text ++ [c] ∧
      ∀ i ∈ (f.store c).stores, 0 ≤ i ∧ i ≤ bufferSize - 1 := by
  have hindex := h.index
  constructor
  · rw [front_succ, front_store (Int.le_of_eq hindex.symm), h.front, ← hindex]
    exact congrArg (text ++ [·]) (update_self _ _ _)
  · refine forall_mem_cons.mpr ⟨?_, h.inside⟩
    simp only [bufferSize] at hlen ⊢
    omega

/-- **One key.** -/
theorem Filled.key (h : Filled text f) (hlt : text.length < bufferSize - 1)
    (hc : c = backspace → text ≠ []) : Filled (press backspace text c) (f.key c) := by
  have hindex := h.index
  have hstore := h.store (c := c) hlt.le
  unfold Filling.key press
  by_cases hback : c = backspace
  · rw [if_pos hback, if_neg (not_not.mpr hback)]
    obtain rfl | ⟨t, x, rfl⟩ := text.eq_nil_or_concat
    · exact absurd rfl (hc hback)
    · have hfront := h.front
      rw [concat_eq_append, length_append, length_singleton, front_succ] at hfront
      have ht := (append_inj' hfront rfl).1
      rw [concat_eq_append, length_append, length_singleton] at hindex
      rw [concat_eq_append, dropLast_concat]
      refine ⟨by dsimp only; omega, ?_, (h.store (c := 0) hlt.le).2⟩
      exact (front_store (f := f) (c := 0) (by omega)).trans ht
  · rw [if_neg hback, if_pos hback]
    refine ⟨?_, by rw [length_append]; exact hstore.1, hstore.2⟩
    simp [hindex]

/-! ### The loop -/

section

variable (he : e = newline ∨ e = -1)

include he

theorem fillKeys_end : fillKeys [e] f = some f := by
  rw [fillKeys, if_neg]
  rintro ⟨hnl, heof, -⟩
  exact he.elim hnl heof

/-- A store in front of the buffer, made or coming, is there in the end. -/
theorem exists_fillKeys_of_mem (keys : List Int8) (h : -1 ∈ (f.store 0).stores) :
    ∃ f', fillKeys (keys ++ [e]) f = some f' ∧ -1 ∈ (f'.store 0).stores := by
  induction keys generalizing f with
  | nil => exact ⟨f, fillKeys_end he, h⟩
  | cons c keys ih =>
    have hkey : (f.key c).stores = (f.store 0).stores := by
      unfold Filling.key
      split <;> rfl
    rw [cons_append, fillKeys]
    split
    · exact ih (mem_cons_of_mem _ (hkey ▸ h))
    · exact ⟨f, rfl, h⟩

/-- **The loop** gets the line, up to the size of the buffer. A backspace on an empty line leads to
a store in front of the buffer. -/
theorem Filled.run (h : Filled text f) (hlen : text.length ≤ bufferSize - 1)
    (hkeys : ∀ c ∈ keys, c ≠ newline ∧ c ≠ -1) :
    ∃ f', fillKeys (keys ++ [e]) f = some f' ∧
      (Steady text keys → Filled (held text keys) f' ∧
        (held text keys).length ≤ bufferSize - 1) ∧
      (¬Steady text keys → -1 ∈ (f'.store 0).stores) := by
  induction keys generalizing text f with
  | nil => exact ⟨f, fillKeys_end he, fun _ => ⟨h, hlen⟩, absurd trivial⟩
  | cons c keys ih =>
    obtain ⟨⟨hnl, heof⟩, hkeys⟩ := forall_mem_cons.mp hkeys
    have hindex := h.index
    rw [cons_append, fillKeys, held, line]
    by_cases hlt : text.length < bufferSize - 1
    · rw [if_pos ⟨hnl, heof, by simp only [bufferSize] at hlt ⊢; omega⟩, if_pos ⟨hnl, hlt⟩]
      by_cases hc : c = backspace → text ≠ []
      · have hle := length_press_le backspace text c
        obtain ⟨f', hrun, hgood, hbad⟩ := ih (h.key hlt hc) (by omega) hkeys
        refine ⟨f', hrun, fun hs => hgood (hs hlt).2, fun hs => hbad fun hs' => ?_⟩
        exact hs fun _ => ⟨hc, hs'⟩
      · obtain ⟨rfl, rfl⟩ : c = backspace ∧ text = [] := by simpa using hc
        have hback : (f.key backspace).index = -1 := by
          rw [Filling.key, if_neg (not_not.mpr rfl)]
          dsimp only
          rw [hindex]
          rfl
        obtain ⟨f', hrun, hmem⟩ := exists_fillKeys_of_mem he keys
          (show -1 ∈ ((f.key backspace).store 0).stores from hback ▸ mem_cons_self)
        exact ⟨f', hrun, fun hs => absurd rfl ((hs hlt).1 rfl), fun _ => hmem⟩
    · rw [if_neg fun hgo => hlt (by simp only [bufferSize] at hgo ⊢; omega),
        if_neg fun hgo => hlt hgo.2]
      exact ⟨f, rfl, fun _ => ⟨h, hlen⟩, fun hs => absurd (fun hgo => absurd hgo hlt) hs⟩

end

/-- **`fill_buffer`** is right unless a backspace comes on an empty line, or characters are lost at
the end of the buffer that would have changed the line. -/
theorem fillBuffer_right_iff (buffer : ℤ → Int8) (keys : List Int8) (e : Int8)
    (hkeys : ∀ c ∈ keys, c ≠ newline ∧ c ≠ -1) (he : e = newline ∨ e = -1) :
    ∃ f, fillBuffer buffer (keys ++ [e]) = some f ∧ (Right keys f ↔ Steady [] keys ∧
      edit newline backspace [] keys ++ [0] <+: held [] keys ++ [0]) := by
  have hstart : Filled [] ⟨buffer, 0, [], []⟩ := ⟨rfl, rfl, by simp⟩
  obtain ⟨f, hrun, hgood, hbad⟩ := hstart.run he (Nat.zero_le _) hkeys
  refine ⟨f.store 0, by rw [fillBuffer, hrun]; rfl, ?_⟩
  by_cases hsteady : Steady [] keys
  · obtain ⟨hfilled, hlen⟩ := hgood hsteady
    obtain ⟨hfront, hinside⟩ := hfilled.store (c := 0) hlen
    have hheld : held [] keys ++ [0] <+: (f.store 0).front bufferSize := by
      rw [← hfront]
      exact front_isPrefix (by simp only [bufferSize] at hlen ⊢; omega)
    refine ⟨fun hright => ⟨hsteady, prefix_of_prefix_length_le hright.line hheld ?_⟩,
      fun hpre => ⟨hinside, hpre.2.trans hheld⟩⟩
    have hfit := hright.line.length_le
    by_cases hfull : (held [] keys).length < bufferSize - 1
    · rw [held, line_eq_edit hfull]
    · simp [Filling.front] at hfit ⊢
      omega
  · refine iff_of_false (fun hright => ?_) fun hpre => hsteady hpre.1
    exact absurd (hright.inside _ (hbad hsteady)) (by decide)

/-- An `a`, taken back, and a `b`. -/
theorem fillBuffer_right_backspace :
    ∃ f, fillBuffer (fun _ => 7) [97, backspace, 98, newline] = some f ∧
      Right [97, backspace, 98] f := by
  obtain ⟨f, hrun, hiff⟩ := fillBuffer_right_iff (fun _ => 7) [97, backspace, 98] newline
    (by simp [newline, backspace]) (.inl rfl)
  have hsteady : Steady [] [97, backspace, 98] :=
    fun _ => ⟨by decide, fun _ => ⟨by decide, fun _ => ⟨by decide, trivial⟩⟩⟩
  exact ⟨f, hrun, hiff.mpr ⟨hsteady, by decide⟩⟩

/-- **A backspace and an `a`.** The `a` goes in front of the buffer, and the line is empty. -/
theorem not_fillBuffer_right :
    ∃ f, fillBuffer (fun _ => 7) [backspace, 97, newline] = some f ∧
      ¬Right [backspace, 97] f ∧ f.buffer (-1) = 97 ∧ f.buffer 0 = 0 := by
  refine ⟨_, rfl, fun h => ?_, rfl, rfl⟩
  have hstore := h.inside (-1) (by decide)
  omega

end AthenX.Scanf
