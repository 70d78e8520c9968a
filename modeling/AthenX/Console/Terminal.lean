import Mathlib

/-!
# The terminal

`init_terminal`, `draw_vbe_char` and `draw_char_8x16` of `drivers/terminal/terminal.c`, and
`update_cursor_manual` of `drivers/display/cursor.c`. A character is drawn at the cursor, eight
pixels wide and sixteen high, and the cursor moves to the right.

Not every move is checked. At the end of a line the cursor goes down, also if there is no row. A
newline clears the pixels under the cursor, also behind the last column. A backspace in the first
column takes it off to the left, and with 32 rows of pixels a newline in the first row takes it
above the screen. The glyph of a byte above 127 is looked up in front of the table.

There is one buffer, since `multi_buffers_enabled` is never set, and `vesa_scroll` changes no
variable.
-/

namespace AthenX.Vesa

open List UInt32

/-! ### The source -/

/-- The variables of `terminal.c`. -/
structure Terminal where
  /-- `terminal_postion_x` and `terminal_postion_y`. -/
  positionX : UInt32
  positionY : UInt32
  fontWidth : UInt32
  fontHeight : UInt32
  width : UInt32
  height : UInt32
  scrollXPos : UInt32
  fontFgColor : UInt32
  fontBgColor : UInt32

/-- `vbe_rgb`. -/
def vbeRgb (red green blue : UInt8) : UInt32 :=
  red.toUInt32 <<< 16 ||| green.toUInt32 <<< 8 ||| blue.toUInt32

/-- `init_terminal`. -/
def initTerminal (x y : UInt32) (t : Terminal) : Terminal :=
  { t with
    fontFgColor := vbeRgb 255 255 255, fontBgColor := vbeRgb 0 0 0
    positionX := 0, positionY := 0
    fontWidth := 8, fontHeight := 16
    width := x, height := y }

/-- What a call does with the memory. -/
inductive Access where
  /-- Read a row of a glyph from `arr_8x16_font`. -/
  | font (index : ℤ)
  /-- `vbe_putpixel`. -/
  | pixel (x y : ℤ) (color : UInt32)
  deriving DecidableEq, Repr

/-- A `size_t` that is passed as an `int`. -/
def signed (u : UInt32) : ℤ := u.toInt32.toInt

/-- `undraw_cursor`. -/
def undrawCursor (t : Terminal) (sx sy : UInt32) : List Access :=
  (List.range 8).flatMap fun x => (List.range 16).map fun y =>
    .pixel (signed (sx + .ofNat x)) (signed (sy + .ofNat y)) t.fontBgColor

/-- `update_cursor_manual`. -/
def updateCursorManual (t : Terminal) : List Access := undrawCursor t t.positionX t.positionY

/-- `draw_char_8x16`, where `font` is the memory around `arr_8x16_font`. -/
def drawChar8x16 (font : ℤ → UInt8) (t : Terminal) (x y : UInt32) (character : Int8) :
    List Access :=
  (List.range 16).flatMap fun (row : ℕ) =>
    .font (character.toInt * 16 + row) :: (List.range 8).map fun col =>
      .pixel (signed (x + .ofNat col)) (signed (y + .ofNat row))
        (if (font (character.toInt * 16 + row)).toNat.testBit (7 - col) then t.fontFgColor
        else t.fontBgColor)

/-- The start of a new row in front of a character that does not fit the line. -/
def wrap (t : Terminal) : Terminal :=
  if t.width - t.fontWidth < t.positionX then
    { t with positionX := t.scrollXPos, positionY := t.positionY + t.fontHeight }
  else t

def newline : Int8 := 10

def backspace : Int8 := 8

def tab : Int8 := 9

def space : Int8 := 32

/-- `draw_vbe_char`. -/
def drawVbeChar (font : ℤ → UInt8) (t : Terminal) (c : Int8) : List Access × Terminal :=
  if c ≠ newline ∧ c ≠ backspace ∧ c ≠ tab then
    let t := wrap t
    (updateCursorManual t ++ drawChar8x16 font t t.positionX t.positionY c,
      { t with positionX := t.positionX + t.fontWidth })
  else if c = newline then
    (updateCursorManual t,
      if t.height - t.fontHeight * 2 ≤ t.positionY then
        { t with positionX := t.scrollXPos, positionY := t.positionY - t.fontHeight }
      else { t with positionX := t.scrollXPos, positionY := t.positionY + t.fontHeight })
  else if c = backspace then
    let t := wrap t
    (updateCursorManual t ++ drawChar8x16 font t t.positionX t.positionY space,
      { t with positionX := t.positionX - t.fontWidth })
  else ([], { t with positionX := t.positionX + t.fontWidth * 4 })

/-- A text, drawn character by character. -/
def draw (font : ℤ → UInt8) : Terminal → List Int8 → List Access
  | _, [] => []
  | t, c :: cs => (drawVbeChar font t c).1 ++ draw font (drawVbeChar font t c).2 cs

/-! ### The property and the condition -/

/-- A screen of one column and two rows of characters, or more. -/
structure Screen where
  width : ℕ
  height : ℕ
  width_ge : 8 ≤ width
  height_ge : 32 ≤ height
  width_lt : width < 2 ^ 31
  height_lt : height < 2 ^ 31

/-- The terminal after `set_scroll_x_pos(0)` and `init_terminal`. -/
def Screen.start (s : Screen) (t : Terminal) : Terminal :=
  initTerminal (.ofNat s.width) (.ofNat s.height) { t with scrollXPos := 0 }

/-- A pixel of the screen, or a row of one of the 256 glyphs. -/
def Access.Inside (s : Screen) : Access → Prop
  | .font index => 0 ≤ index ∧ index < 256 * 16
  | .pixel x y _ => (0 ≤ x ∧ x < s.width) ∧ 0 ≤ y ∧ y < s.height

/-- What is drawn for a text is inside. -/
def Inside (s : Screen) (font : ℤ → UInt8) (t : Terminal) (cs : List Int8) : Prop :=
  ∀ a ∈ draw font (s.start t) cs, a.Inside s

/-- There is no column for the cursor in its row. -/
def Full (t : Terminal) : Prop := t.width - t.fontWidth < t.positionX

/-- There is no row below the cursor. -/
def Last (t : Terminal) : Prop := t.height - t.fontHeight * 2 < t.positionY

/-- The cursor is in the row above the screen. -/
def Above (t : Terminal) : Prop := t.positionY = 0 - t.fontHeight

instance (t : Terminal) : Decidable (Full t) := inferInstanceAs (Decidable (_ < _))
instance (t : Terminal) : Decidable (Last t) := inferInstanceAs (Decidable (_ < _))
instance (t : Terminal) : Decidable (Above t) := inferInstanceAs (Decidable (_ = _))

/-- There is room for a character: in the row of the cursor for a newline, else maybe in the next
one. -/
def Room (t : Terminal) (c : Int8) : Prop :=
  if c = tab then True
  else if c = newline then ¬Full t ∧ ¬Above t
  else 0 ≤ c.toInt ∧ if Full t then Last t → Above t else ¬Above t

instance (t : Terminal) (c : Int8) : Decidable (Room t c) := by
  unfold Room
  infer_instance

/-- There is room for each character of a text. -/
def Fits (font : ℤ → UInt8) : Terminal → List Int8 → Prop
  | _, [] => True
  | t, c :: cs => Room t c ∧ Fits font (drawVbeChar font t c).2 cs

instance decidableFits (font : ℤ → UInt8) : ∀ t cs, Decidable (Fits font t cs)
  | _, [] => isTrue trivial
  | t, c :: cs =>
      have := decidableFits font (drawVbeChar font t c).2 cs
      inferInstanceAs (Decidable (_ ∧ _))

/-! ### Coordinates -/

section

variable {s : Screen} {t : Terminal} {font : ℤ → UInt8} {u x y : UInt32} {c : Int8} {n k : ℕ}

theorem signed_mem_iff (hn : n ≤ 2 ^ 31) : (0 ≤ signed u ∧ signed u < n) ↔ u.toNat < n := by
  have hlt := u.toNat_lt
  rw [show signed u = u.toBitVec.toInt from rfl, BitVec.toInt_eq_toNat_cond, toNat_toBitVec]
  split <;> omega

theorem forall_signed_iff (hk : 0 < k) (hk' : k ≤ 16) (hn : n < 2 ^ 31) :
    (∀ i < k, 0 ≤ signed (u + .ofNat i) ∧ signed (u + .ofNat i) < n) ↔ u.toNat + k ≤ n := by
  simp only [signed_mem_iff hn.le, UInt32.toNat_add, UInt32.toNat_ofNat']
  constructor
  · intro h
    have hfirst := h 0 hk
    have hlast := h (k - 1) (by omega)
    have hlt := u.toNat_lt
    omega
  · intro h i hi
    omega

theorem forall_undrawCursor_iff : (∀ a ∈ undrawCursor t x y, a.Inside s) ↔
    x.toNat + 8 ≤ s.width ∧ y.toNat + 16 ≤ s.height := by
  rw [← forall_signed_iff (by decide) (by decide) s.width_lt,
    ← forall_signed_iff (by decide) (by decide) s.height_lt]
  simp only [undrawCursor, mem_flatMap, mem_map, mem_range]
  constructor
  · intro h
    refine ⟨fun i hi => (h _ ⟨i, hi, 0, by decide, rfl⟩).1, fun j hj => ?_⟩
    exact (h _ ⟨0, by decide, j, hj, rfl⟩).2
  · rintro ⟨hx, hy⟩ a ⟨i, hi, j, hj, rfl⟩
    exact ⟨hx i hi, hy j hj⟩

theorem forall_drawChar8x16_iff : (∀ a ∈ drawChar8x16 font t x y c, a.Inside s) ↔
    (x.toNat + 8 ≤ s.width ∧ y.toNat + 16 ≤ s.height) ∧ 0 ≤ c.toInt := by
  rw [← forall_signed_iff (by decide) (by decide) s.width_lt,
    ← forall_signed_iff (by decide) (by decide) s.height_lt]
  simp only [drawChar8x16, mem_flatMap, mem_cons, mem_map, mem_range]
  constructor
  · intro h
    refine ⟨⟨fun i hi => (h _ ⟨0, by decide, .inr ⟨i, hi, rfl⟩⟩).1, fun j hj => ?_⟩, ?_⟩
    · exact (h _ ⟨j, hj, .inr ⟨0, by decide, rfl⟩⟩).2
    · have hglyph : 0 ≤ c.toInt * 16 + (0 : ℕ) := (h _ ⟨0, by decide, .inl rfl⟩).1
      omega
  · rintro ⟨⟨hx, hy⟩, hc⟩ a ⟨j, hj, rfl | ⟨i, hi, rfl⟩⟩
    · have hlt := c.toInt_lt
      constructor <;> omega
    · exact ⟨hx i hi, hy j hj⟩

/-! ### The four kinds of characters -/

theorem drawVbeChar_newline : drawVbeChar font t newline = (updateCursorManual t,
    if t.height - t.fontHeight * 2 ≤ t.positionY then
      { t with positionX := t.scrollXPos, positionY := t.positionY - t.fontHeight }
    else { t with positionX := t.scrollXPos, positionY := t.positionY + t.fontHeight }) := rfl

theorem drawVbeChar_backspace : drawVbeChar font t backspace =
    (updateCursorManual (wrap t) ++
        drawChar8x16 font (wrap t) (wrap t).positionX (wrap t).positionY space,
      { wrap t with positionX := (wrap t).positionX - (wrap t).fontWidth }) := rfl

theorem drawVbeChar_of_ne (hn : c ≠ newline) (hb : c ≠ backspace) (ht : c ≠ tab) :
    drawVbeChar font t c =
      (updateCursorManual (wrap t) ++
          drawChar8x16 font (wrap t) (wrap t).positionX (wrap t).positionY c,
        { wrap t with positionX := (wrap t).positionX + (wrap t).fontWidth }) :=
  if_pos ⟨hn, hb, ht⟩

theorem wrap_of_full (h : Full t) :
    wrap t = { t with positionX := t.scrollXPos, positionY := t.positionY + t.fontHeight } :=
  if_pos h

theorem wrap_of_not_full (h : ¬Full t) : wrap t = t := if_neg h

theorem room_newline : Room t newline ↔ ¬Full t ∧ ¬Above t := Iff.rfl

theorem room_tab : Room t tab := trivial

theorem room_of_ne (hn : c ≠ newline) (ht : c ≠ tab) : Room t c ↔
    0 ≤ c.toInt ∧ if Full t then Last t → Above t else ¬Above t := by
  rw [Room, if_neg ht, if_neg hn]

/-! ### The invariant -/

/-- The variables during a run in which each character has had room. -/
structure Good (s : Screen) (t : Terminal) : Prop where
  width : t.width.toNat = s.width
  height : t.height.toNat = s.height
  fontWidth : t.fontWidth = 8
  fontHeight : t.fontHeight = 16
  scrollXPos : t.scrollXPos = 0
  row_mod : t.positionY.toNat % 16 = 0
  row : t.positionY.toNat + 16 ≤ s.height ∨ Above t

theorem good_initTerminal (hscroll : t.scrollXPos = 0) :
    Good s (initTerminal (.ofNat s.width) (.ofNat s.height) t) := by
  have hsize : 2 ^ 31 < UInt32.size := by decide
  refine ⟨?_, ?_, rfl, rfl, hscroll, rfl, .inl ?_⟩
  · exact toNat_ofNat_of_lt' (s.width_lt.trans hsize)
  · exact toNat_ofNat_of_lt' (s.height_lt.trans hsize)
  · have hh := s.height_ge
    change 0 + 16 ≤ s.height
    omega

theorem good_start : Good s (s.start t) := good_initTerminal rfl

namespace Good

section

variable (g : Good s t)

include g

theorem full_iff : Full t ↔ s.width < t.positionX.toNat + 8 := by
  have hw := s.width_ge
  have hle : (8 : UInt32) ≤ t.width := UInt32.le_iff_toNat_le.mpr (by rw [g.width]; exact hw)
  rw [Full, g.fontWidth, UInt32.lt_iff_toNat_lt, UInt32.toNat_sub_of_le _ _ hle, g.width]
  change s.width - 8 < _ ↔ _
  omega

theorem toNat_last : (t.height - t.fontHeight * 2).toNat = s.height - 32 := by
  have hh := s.height_ge
  have hle : (32 : UInt32) ≤ t.height := UInt32.le_iff_toNat_le.mpr (by rw [g.height]; exact hh)
  rw [g.fontHeight, show (16 : UInt32) * 2 = 32 from rfl, UInt32.toNat_sub_of_le _ _ hle, g.height]
  rfl

theorem last_iff : Last t ↔ s.height < t.positionY.toNat + 32 := by
  have hh := s.height_ge
  rw [Last, lt_iff_toNat_lt, g.toNat_last]
  omega

theorem toNat_down : (t.positionY + t.fontHeight).toNat = (t.positionY.toNat + 16) % 2 ^ 32 := by
  rw [g.fontHeight]
  rfl

theorem toNat_up :
    (t.positionY - t.fontHeight).toNat = (2 ^ 32 - 16 + t.positionY.toNat) % 2 ^ 32 := by
  rw [g.fontHeight]
  rfl

theorem above_iff : Above t ↔ t.positionY.toNat = 2 ^ 32 - 16 := by
  rw [Above, g.fontHeight, ← UInt32.toNat_inj]
  rfl

theorem not_above_iff : ¬Above t ↔ t.positionY.toNat + 16 ≤ s.height := by
  have hh := s.height_lt
  have hrow := g.row
  rw [g.above_iff] at hrow ⊢
  omega

theorem wrap_iff :
    ((wrap t).positionX.toNat + 8 ≤ s.width ∧ (wrap t).positionY.toNat + 16 ≤ s.height) ↔
      if Full t then Last t → Above t else ¬Above t := by
  have hw := s.width_ge
  have hh := s.height_ge
  have hh' := s.height_lt
  by_cases hfull : Full t
  · rw [wrap_of_full hfull, if_pos hfull, g.last_iff, g.above_iff, g.scrollXPos, g.toNat_down,
      UInt32.toNat_zero]
    have hrow := g.row
    rw [g.above_iff] at hrow
    omega
  · rw [wrap_of_not_full hfull, if_neg hfull, g.not_above_iff]
    rw [g.full_iff] at hfull
    omega

theorem move (x : UInt32) : Good s { t with positionX := x } :=
  ⟨g.width, g.height, g.fontWidth, g.fontHeight, g.scrollXPos, g.row_mod, g.row⟩

theorem moveTo (y : UInt32) (hmod : y.toNat % 16 = 0)
    (hrow : y.toNat + 16 ≤ s.height ∨ y.toNat = 2 ^ 32 - 16) :
    Good s { t with positionX := t.scrollXPos, positionY := y } := by
  refine ⟨g.width, g.height, g.fontWidth, g.fontHeight, g.scrollXPos, hmod, hrow.imp_right ?_⟩
  intro habove
  rw [Above, g.fontHeight, ← UInt32.toNat_inj]
  exact habove

theorem wrapped (hroom : if Full t then Last t → Above t else ¬Above t) : Good s (wrap t) := by
  have hrow := (g.wrap_iff.mpr hroom).2
  have hmod := g.row_mod
  by_cases hfull : Full t
  · rw [wrap_of_full hfull] at hrow ⊢
    exact g.moveTo _ (by rw [g.toNat_down]; omega) (.inl hrow)
  · rw [wrap_of_not_full hfull]
    exact g

/-- A newline goes one row down, or up after scrolling. -/
theorem next_newline (hy : ¬Above t) : Good s (drawVbeChar font t newline).2 := by
  have hmod := g.row_mod
  rw [g.not_above_iff] at hy
  rw [drawVbeChar_newline]
  split
  · exact g.moveTo _ (by rw [g.toNat_up]; omega) (by rw [g.toNat_up]; omega)
  · rename_i hlast
    rw [le_iff_toNat_le, g.toNat_last] at hlast
    exact g.moveTo _ (by rw [g.toNat_down]; omega) (by rw [g.toNat_down]; omega)

/-- **The pixels and rows of one call** are inside if and only if there is room. -/
theorem forall_drawVbeChar_iff : (∀ a ∈ (drawVbeChar font t c).1, a.Inside s) ↔ Room t c := by
  by_cases htab : c = tab
  · subst htab
    exact iff_of_true (fun a ha => nomatch ha) room_tab
  by_cases hnew : c = newline
  · subst hnew
    rw [drawVbeChar_newline, updateCursorManual, forall_undrawCursor_iff, room_newline, g.full_iff,
      g.not_above_iff, Nat.not_lt]
  rw [room_of_ne hnew htab, ← g.wrap_iff]
  by_cases hback : c = backspace
  · subst hback
    rw [drawVbeChar_backspace, forall_mem_append, updateCursorManual, forall_undrawCursor_iff,
      forall_drawChar8x16_iff]
    simp [space, backspace]
  · rw [drawVbeChar_of_ne hnew hback htab, forall_mem_append, updateCursorManual,
      forall_undrawCursor_iff, forall_drawChar8x16_iff]
    tauto

theorem next (hroom : Room t c) : Good s (drawVbeChar font t c).2 := by
  by_cases htab : c = tab
  · subst htab
    exact g.move _
  by_cases hnew : c = newline
  · subst hnew
    exact g.next_newline (room_newline.mp hroom).2
  have hw := g.wrapped ((room_of_ne hnew htab).mp hroom).2
  by_cases hback : c = backspace
  · subst hback
    exact hw.move _
  · rw [drawVbeChar_of_ne hnew hback htab]
    exact hw.move _

end

end Good

theorem Good.forall_draw_iff {cs : List Int8} (g : Good s t) :
    (∀ a ∈ draw font t cs, a.Inside s) ↔ Fits font t cs := by
  induction cs generalizing t with
  | nil => exact iff_of_true (fun a ha => nomatch ha) trivial
  | cons c cs ih =>
    rw [draw, forall_mem_append, g.forall_drawVbeChar_iff]
    exact and_congr_right fun hroom => ih (g.next hroom)

/-- **What is drawn is inside the screen and the table if and only if there is room.** -/
theorem draw_inside_iff (s : Screen) (font : ℤ → UInt8) (t : Terminal) (cs : List Int8) :
    Inside s font t cs ↔ Fits font (s.start t) cs :=
  good_start.forall_draw_iff

/-! ### Short lines -/

/-- From column `col` on, the lines of a text and the cursor at a newline stay in `cols` columns,
with no backspace at the start of a line and no byte above 127. -/
def ShortLines (cols : ℕ) : ℕ → List Int8 → Prop
  | _, [] => True
  | col, c :: cs =>
      if c = tab then ShortLines cols (col + 4) cs
      else if c = newline then col < cols ∧ ShortLines cols 0 cs
      else if c = backspace then 0 < col ∧ col < cols ∧ ShortLines cols (col - 1) cs
      else 0 ≤ c.toInt ∧ col < cols ∧ ShortLines cols (col + 1) cs

theorem Good.not_full (g : Good s t) {col : ℕ} (hx : t.positionX.toNat = 8 * col % 2 ^ 32)
    (hcol : col < s.width / 8) : ¬Full t := by
  rw [g.full_iff]
  omega

theorem Good.next_newline_not_above (g : Good s t) (hh : 32 < s.height) (hy : ¬Above t) :
    ¬Above (drawVbeChar font t newline).2 := by
  have hlt := s.height_lt
  rw [(g.next_newline hy).above_iff, drawVbeChar_newline]
  rw [g.not_above_iff] at hy
  split
  · rename_i hlast
    rw [le_iff_toNat_le, g.toNat_last] at hlast
    rw [g.toNat_up]
    omega
  · change ¬(t.positionY + t.fontHeight).toNat = _
    rw [g.toNat_down]
    omega

/-- **Short lines fit**, however many there are. -/
theorem Good.fits_of_shortLines {cs : List Int8} {col : ℕ} (g : Good s t) (hh : 32 < s.height)
    (hy : ¬Above t) (hx : t.positionX.toNat = 8 * col % 2 ^ 32)
    (hshort : ShortLines (s.width / 8) col cs) : Fits font t cs := by
  induction cs generalizing t col with
  | nil => trivial
  | cons c cs ih =>
    rw [ShortLines] at hshort
    split at hshort
    · rename_i htab
      subst htab
      refine ⟨room_tab, ih (g.move _) hy ?_ hshort⟩
      change (t.positionX + t.fontWidth * 4).toNat = _
      rw [g.fontWidth, UInt32.toNat_add, show ((8 : UInt32) * 4).toNat = 32 from rfl]
      omega
    rename_i htab
    split at hshort
    · rename_i hnew
      subst hnew
      obtain ⟨hcol, hshort⟩ := hshort
      have hroom : Room t newline := ⟨g.not_full hx hcol, hy⟩
      refine ⟨hroom, ih (g.next hroom) (g.next_newline_not_above hh hy) ?_ hshort⟩
      rw [drawVbeChar_newline, apply_ite Terminal.positionX, ite_self, g.scrollXPos]
      rfl
    rename_i hnew
    split at hshort
    · rename_i hback
      subst hback
      obtain ⟨hpos, hcol, hshort⟩ := hshort
      have hfull := g.not_full hx hcol
      refine ⟨(room_of_ne hnew htab).mpr ⟨by decide, by rwa [if_neg hfull]⟩, ?_⟩
      rw [drawVbeChar_backspace, wrap_of_not_full hfull]
      refine ih (g.move _) hy ?_ hshort
      rw [g.fontWidth, UInt32.toNat_sub, show (8 : UInt32).toNat = 8 from rfl]
      omega
    · rename_i hback
      obtain ⟨hc, hcol, hshort⟩ := hshort
      have hfull := g.not_full hx hcol
      refine ⟨(room_of_ne hnew htab).mpr ⟨hc, by rwa [if_neg hfull]⟩, ?_⟩
      rw [drawVbeChar_of_ne hnew hback htab, wrap_of_not_full hfull]
      refine ih (g.move _) hy ?_ hshort
      rw [g.fontWidth, UInt32.toNat_add, show (8 : UInt32).toNat = 8 from rfl]
      omega

/-- Texts with short lines are drawn inside a screen of more than 32 rows of pixels, if the lines
start in the first column. -/
theorem inside_of_shortLines {cs : List Int8} (hscroll : t.scrollXPos = 0) (hh : 32 < s.height)
    (hshort : ShortLines (s.width / 8) 0 cs) :
    ∀ a ∈ draw font (initTerminal (.ofNat s.width) (.ofNat s.height) t) cs, a.Inside s := by
  have hgood := good_initTerminal (s := s) hscroll
  rw [hgood.forall_draw_iff]
  exact hgood.fits_of_shortLines hh (show ¬(0 : UInt32) = 0 - 16 by decide) rfl hshort

end

/-! ### A small screen -/

/-- Two rows of one character. -/
def tiny : Screen := ⟨8, 32, by decide, by decide, by decide, by decide⟩

/-- The variables before `init_terminal`. -/
def unset : Terminal := ⟨0, 0, 0, 0, 0, 0, 0, 0, 0⟩

/-- Three rows of two characters. -/
def small : Screen := ⟨16, 48, by decide, by decide, by decide, by decide⟩

theorem inside_line : unset.scrollXPos = 0 ∧
    ∀ a ∈ draw (fun _ => 0) (initTerminal 16 48 unset) [65, newline, 66], a.Inside small :=
  ⟨rfl, inside_of_shortLines (s := small) rfl (by decide)
    (by simp [ShortLines, small, tab, newline, backspace])⟩

theorem not_inside_of_not_fits {s : Screen} {font : ℤ → UInt8} {t : Terminal} {cs : List Int8}
    (h : ¬Fits font (s.start t) cs) : ¬Inside s font t cs :=
  fun hin => h (good_start.forall_draw_iff.mp hin)

/-- The byte 128, and characters at the edges, are not drawn inside. -/
theorem not_inside_tiny : ¬Inside tiny (fun _ => 0) unset [-128] ∧
    ¬Inside tiny (fun _ => 0) unset [65, 66, 67] ∧
    ¬Inside tiny (fun _ => 0) unset [65, newline] ∧
    ¬Inside tiny (fun _ => 0) unset [newline, 65] :=
  ⟨not_inside_of_not_fits (by decide), not_inside_of_not_fits (by decide),
    not_inside_of_not_fits (by decide), not_inside_of_not_fits (by decide)⟩

end AthenX.Vesa
