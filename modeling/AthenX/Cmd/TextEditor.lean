import AthenX.Console.LineEditor
import AthenX.Files.Fopen

/-!
# The text editor

`edit_file` of `kernel/cmd/text_editor.c` reads a file into a buffer with room for a hundred more
characters, appends what is typed and deletes from the end, and writes the buffer to a file.

It reads with `fopen`, which puts the current directory in front of a relative path, and writes with
`fl_fopen`, which does not; it does not write less than the file had, and does not count what is
typed.

The files are on a disk that does what it is told. `data` is what `malloc` returns.
-/

namespace AthenX.Cmd

open Files Words LineEdit List Function
open Console (received received_of_le received_of_lt newline_ne_of_le ne_eof_of_lt)
open Vesa (newline backspace)

/-! ### The source -/

/-- A file, by the components of its path. -/
abbrev FileName := List (List UInt8)

/-- The contents of the files. -/
abbrev Disk := FileName → Option (List Int8)

/-- The file that `fopen` opens, by `Grants.returns_target`. -/
def fopenName (stack : Stale) (cwd path : List UInt8) : FileName :=
  words isSlash (passed stack (joined cwd path))

/-- The file that `fl_fopen` opens. -/
def flFopenName (path : List UInt8) : FileName := words isSlash path

/-- `file_data` and `current_cur_pos`, with the indices stored to. -/
structure Edit where
  fileData : ℕ → Int8
  currentCurPos : ℕ
  stored : List ℕ

/-- `file_data[i] = ch`. -/
def Edit.store (e : Edit) (i : ℕ) (ch : Int8) : Edit :=
  { e with fileData := Function.update e.fileData i ch, stored := i :: e.stored }

/-- The call of `fread`, and the terminator. -/
def loadFile (content : List Int8) (data : ℕ → Int8) : Edit :=
  let fileData := fun i => content.getD i (data i)
  Edit.store ⟨fileData, content.length, List.range content.length⟩ content.length 0

/-- The body of the loop. -/
def Edit.key (e : Edit) (userChar : Int8) : Edit :=
  if userChar = backspace then
    if 0 < e.currentCurPos then
      let e := { e with currentCurPos := e.currentCurPos - 1 }
      e.store e.currentCurPos 0
    else e
  else
    let e := e.store e.currentCurPos userChar
    { e with currentCurPos := e.currentCurPos + 1 }

/-- The loop. It waits for ever when the keys are used up. -/
def editKeys : List Int8 → Edit → Option Edit
  | [], _ => none
  | userChar :: keys, e =>
      -- `getch_` does not return such a character
      if userChar ≤ 0 then editKeys keys e
      else if userChar ≠ newline ∧ userChar ≠ -1 then editKeys keys (e.key userChar)
      else some e

/-- The loop that should clear the rest of the buffer, up to `file_size-current_cur_pos`. -/
def clearRest (fileSize : ℕ) (e : Edit) : Edit :=
  if e.currentCurPos < fileSize then
    (List.range' e.currentCurPos (fileSize - e.currentCurPos - e.currentCurPos)).foldl
      (fun e i => e.store i 0) e
  else e

/-- The characters that are written. -/
def Edit.written (fileSize : ℕ) (e : Edit) : List Int8 :=
  (List.range (if fileSize < e.currentCurPos then e.currentCurPos else fileSize)).map e.fileData

/-- What has been opened, written and stored to. -/
structure Session where
  read : FileName
  wrote : FileName
  written : List Int8
  stored : List ℕ

/-- `edit_file`, with a local copy of the path of 260 bytes. `block` is what `malloc` returns. There
is no result for the path of a virtual device, which is not on the disk. -/
def editFile (disk : Disk) (block : Option (ℕ → Int8)) (stack : Stale) (cwd filePath : List UInt8)
    (keys : List Int8) : Option (Disk × ℤ × Option Session) :=
  if 260 ≤ filePath.length ∨ isVirtualDevicePath filePath then none
  else
    match disk (fopenName stack cwd filePath) with
    | none => some (disk, -1, none)
    | some content =>
        if 2 ^ 31 ≤ content.length + 100 then none
        else
          match block with
          | none => some (disk, -1, none)
          | some data => do
              let e ← editKeys keys (loadFile content data)
              let e := clearRest content.length e
              let written := e.written content.length
              let name := flFopenName filePath
              some (Function.update disk name (some written), 0,
                some ⟨fopenName stack cwd filePath, name, written, e.stored⟩)

/-! ### The property and the condition -/

/-- The text that the keys make of the contents. -/
def edited (content keys : List Int8) : List Int8 := edit newline backspace content (received keys)

/-- **The file that was read is rewritten with the edited text**, within the buffer. -/
structure Rewrites (content keys : List Int8) (r : Session) : Prop where
  same : r.wrote = r.read
  text : r.written = edited content keys
  inside : ∀ i ∈ r.stored, i < content.length + 100

/-- `fopen` opens the file that `fl_fopen` opens. -/
def SameFile (stack : Stale) (cwd path : List UInt8) : Prop :=
  if path.head? = some slash then leftover stack = words isSlash path else words isSlash cwd = []

/-- The text never gets more than a hundred characters longer than the file was. -/
def Fits (content keys : List Int8) : Prop :=
  ∀ ks, ks <+: received keys →
    (edit newline backspace content ks).length ≤ content.length + 100

section

variable {stack : Stale} {cwd path : List UInt8} {content text keys : List Int8} {e e' : Edit}
  {ch : Int8} {data : ℕ → Int8} {n : ℕ}

/-! ### The file -/

theorem words_ne_nil_of_not_rooted (h : ¬Rooted cwd) : words isSlash cwd ≠ [] := by
  rw [Ne, words_eq_nil_iff]
  intro hall
  cases cwd with
  | nil => exact h (.inl rfl)
  | cons c cwd =>
    have hc : c = slash := by simpa [isSlash] using hall c mem_cons_self
    exact h (.inr (by simp [isRooted, hc]))

/-- **When both functions open the same file.** -/
theorem sameFile_iff : flFopenName path = fopenName stack cwd path ↔ SameFile stack cwd path := by
  unfold flFopenName fopenName SameFile
  rw [words_passed, eq_comm]
  unfold joined
  split
  · rw [if_neg (by simp [isRooted]), words_nil, append_nil]
  · rw [words_append_cons isSlash_slash]
    split
    · exact append_left_eq_self
    · next hroot =>
      have hwords := words_ne_nil_of_not_rooted (mt isRooted_append_iff.mpr hroot)
      refine iff_of_false (fun heq => hwords ?_) hwords
      rw [← append_assoc, append_left_eq_self, append_eq_nil_iff] at heq
      exact heq.2

/-! ### The loop -/

/-- The text so far is in the buffer. It ends at `n` if nothing is stored behind it. -/
structure Shows (n : ℕ) (text : List Int8) (e : Edit) : Prop where
  cursor : e.currentCurPos = text.length
  data : ∀ i < text.length, text[i]? = some (e.fileData i)
  room : (∀ i ∈ e.stored, i < n) → text.length ≤ n

theorem shows_loadFile (content : List Int8) (data : ℕ → Int8) :
    Shows (content.length + 100) content (loadFile content data) where
  cursor := rfl
  data := by
    intro i hi
    have hne : i ≠ content.length := Nat.ne_of_lt hi
    simp [loadFile, Edit.store, hne, hi]
  room := fun _ => Nat.le_add_right _ _

theorem Shows.stored_key (h : Shows n text e) :
    (∀ i ∈ (e.key ch).stored, i < n) ↔
      (∀ i ∈ e.stored, i < n) ∧ (press backspace text ch).length ≤ n := by
  have hcursor := h.cursor
  have hroom := h.room
  unfold Edit.key press
  split
  · split
    · simp only [Edit.store, forall_mem_cons, length_dropLast]
      constructor
      · rintro ⟨-, hall⟩
        have := hroom hall
        exact ⟨hall, by omega⟩
      · rintro ⟨hall, -⟩
        have := hroom hall
        exact ⟨by omega, hall⟩
    · have hlen : text.dropLast.length = 0 := by
        rw [length_dropLast]
        omega
      rw [hlen]
      exact (and_iff_left (Nat.zero_le n)).symm
  · simp only [Edit.store, forall_mem_cons, length_append, hcursor]
    exact and_comm

/-- **One key.** -/
theorem Shows.key (h : Shows n text e) (ch : Int8) :
    Shows n (press backspace text ch) (e.key ch) := by
  refine ⟨?_, ?_, fun hall => (h.stored_key.mp hall).2⟩
  · have hcursor := h.cursor
    unfold Edit.key press
    split
    · split
      · simp [Edit.store, length_dropLast, hcursor]
      · rw [length_dropLast]
        omega
    · simp [Edit.store, hcursor]
  · unfold Edit.key press
    split
    · split
      · intro i hi
        rw [length_dropLast] at hi
        simp only [h.cursor, Edit.store]
        rw [List.getElem?_dropLast, if_pos hi, h.data i (by omega), update_of_ne (by omega)]
      · next hzero =>
        intro i hi
        rw [h.cursor] at hzero
        rw [length_dropLast] at hi
        omega
    · intro i hi
      rw [length_append, length_singleton] at hi
      simp only [h.cursor, Edit.store]
      by_cases heq : i = text.length
      · rw [heq, List.getElem?_concat_length, update_self]
      · rw [List.getElem?_append_left (by omega), h.data i (by omega), update_of_ne heq]

/-- **The loop** ends with the edited text, within index `n` if it was never longer. -/
theorem Shows.editKeys (h : Shows n text e) (hnl : newline ∈ keys) :
    ∃ e', Cmd.editKeys keys e = some e' ∧
      Shows n (edit newline backspace text (received keys)) e' ∧
      ((∀ i ∈ e'.stored, i < n) ↔ (∀ i ∈ e.stored, i < n) ∧
        ∀ ks, ks <+: received keys → (edit newline backspace text ks).length ≤ n) := by
  induction keys generalizing text e with
  | nil => simp at hnl
  | cons ch keys ih =>
    rw [Cmd.editKeys]
    by_cases hch : ch ≤ 0
    · rw [if_pos hch, received_of_le hch]
      exact ih h ((mem_cons.mp hnl).resolve_left (newline_ne_of_le hch))
    · have hpos : 0 < ch := by simpa using hch
      have hprefix : (∀ ks, ks <+: ch :: received keys →
            (edit newline backspace text ks).length ≤ n) ↔
          text.length ≤ n ∧ (ch ≠ newline → ∀ ks, ks <+: received keys →
            (edit newline backspace (press backspace text ch) ks).length ≤ n) :=
        forall_prefix_edit_cons (P := fun t => t.length ≤ n)
      rw [if_neg hch, received_of_lt hpos, hprefix]
      by_cases hend : ch = newline
      · rw [hend]
        refine ⟨e, rfl, h, ?_⟩
        simpa using h.room
      · rw [if_pos ⟨hend, ne_eof_of_lt hpos⟩, edit_of_ne hend]
        obtain ⟨e', he', hshows, hstored⟩ :=
          ih (h.key ch) ((mem_cons.mp hnl).resolve_left (Ne.symm hend))
        refine ⟨e', he', hshows, ?_⟩
        rw [hstored, h.stored_key]
        constructor
        · rintro ⟨⟨hall, -⟩, hlater⟩
          exact ⟨hall, h.room hall, fun _ => hlater⟩
        · rintro ⟨hall, -, hlater⟩
          exact ⟨⟨hall, hlater hend [] nil_prefix⟩, hlater hend⟩

theorem fits_of_length (h : keys.length ≤ 100) : Fits content keys := by
  intro ks hks
  have hedit := length_edit_le newline backspace content ks
  have hprefix := hks.length_le
  have hfilter : (received keys).length ≤ keys.length := length_filter_le _ _
  omega

/-! ### The call -/

theorem length_written (e : Edit) : (e.written n).length = max n e.currentCurPos := by
  rw [Edit.written, length_map, length_range]
  split
  · omega
  · omega

theorem Shows.written_eq {k : ℕ} (h : Shows n text e) (hk : k ≤ text.length) :
    e.written k = text := by
  have hlen : (e.written k).length = text.length := by
    rw [length_written, h.cursor]
    omega
  refine ext_getElem hlen fun i h1 h2 => ?_
  have hdata := h.data i h2
  rw [List.getElem?_eq_getElem h2] at hdata
  rw [Option.some.inj hdata]
  simp [Edit.written]

theorem foldl_store (is : List ℕ) (e : Edit) :
    (is.foldl (fun e i => e.store i 0) e).currentCurPos = e.currentCurPos ∧
      (is.foldl (fun e i => e.store i 0) e).stored = is.reverse ++ e.stored := by
  induction is generalizing e with
  | nil => exact ⟨rfl, rfl⟩
  | cons i is ih =>
    obtain ⟨hcur, hstored⟩ := ih (e.store i 0)
    rw [foldl_cons, hcur, hstored]
    exact ⟨rfl, by simp [Edit.store]⟩

theorem clearRest_spec (k : ℕ) (e : Edit) :
    (clearRest k e).currentCurPos = e.currentCurPos ∧
      ((∀ i ∈ (clearRest k e).stored, i < k + 100) ↔ ∀ i ∈ e.stored, i < k + 100) := by
  unfold clearRest
  split
  · obtain ⟨hcur, hstored⟩ := foldl_store
      (List.range' e.currentCurPos (k - e.currentCurPos - e.currentCurPos)) e
    refine ⟨hcur, ?_⟩
    rw [hstored, forall_mem_append]
    refine and_iff_right fun i hi => ?_
    rw [mem_reverse, mem_range'_1] at hi
    omega
  · exact ⟨rfl, Iff.rfl⟩

theorem written_clearRest {k : ℕ} (h : Shows n text e) :
    (clearRest k e).written k = text ↔ k ≤ text.length := by
  constructor
  · intro heq
    have hlen := length_written (n := k) (clearRest k e)
    rw [heq] at hlen
    omega
  · intro hk
    rw [clearRest, if_neg (by rw [h.cursor]; omega)]
    exact h.written_eq hk

theorem stored_loadFile (content : List Int8) (data : ℕ → Int8) :
    ∀ i ∈ (loadFile content data).stored, i < content.length + 100 := by
  intro i hi
  simp only [loadFile, Edit.store, mem_cons, mem_range] at hi
  omega

end

/-- **When the file is rewritten with the edited text**: if `fopen` and `fl_fopen` open the same
file, the text is not shorter than the file was, and it was never more than a hundred characters
longer. -/
theorem rewrites_iff (disk : Disk) (stack : Stale) (cwd path : List UInt8) {content : List Int8}
    (data : ℕ → Int8) (hpath : path.length < 260) (hdev : isVirtualDevicePath path = false)
    (hfile : disk (fopenName stack cwd path) = some content)
    (hsize : content.length + 100 < 2 ^ 31) (keys : List Int8) :
    ∃ r, editFile disk (some data) stack cwd path (keys ++ [newline]) =
        some (Function.update disk r.wrote (some r.written), 0, some r) ∧
      r.read = fopenName stack cwd path ∧
      (Rewrites content (keys ++ [newline]) r ↔ SameFile stack cwd path ∧
        content.length ≤ (edited content (keys ++ [newline])).length ∧
        Fits content (keys ++ [newline])) := by
  have hnl : newline ∈ keys ++ [newline] := by simp
  obtain ⟨e, he, hshows, hstored⟩ := (shows_loadFile content data).editKeys hnl
  refine ⟨⟨fopenName stack cwd path, flFopenName path,
    (clearRest content.length e).written content.length, (clearRest content.length e).stored⟩,
    ?_, rfl, ?_⟩
  · unfold editFile
    simp only [Nat.not_le.mpr hpath, hdev, Bool.false_eq_true, or_self, if_false, hfile,
      Nat.not_le.mpr hsize, he, Option.bind_eq_bind, Option.bind_some]
  · have hinside := (clearRest_spec content.length e).2.trans hstored
    rw [and_iff_right (stored_loadFile content data)] at hinside
    rw [← sameFile_iff, edited, ← written_clearRest hshows, Fits, ← hinside]
    exact ⟨fun h => ⟨h.same, h.text, h.inside⟩, fun h => ⟨h.1, h.2.1, h.2.2⟩⟩

/-- A `!` is appended to the file `a`. -/
theorem rewrites_append : ∃ r,
    editFile (fun _ => some [104, 105]) (some fun _ => 7) clearStack [slash] [97] [33, newline] =
      some (Function.update (fun _ => some [104, 105]) r.wrote (some r.written), 0, some r) ∧
    Rewrites [104, 105] [33, newline] r := by
  obtain ⟨r, hr, -, hiff⟩ := rewrites_iff (fun _ => some [104, 105]) clearStack [slash] [97]
    (fun _ => 7) (by decide) rfl rfl (by decide) [33]
  refine ⟨r, hr, hiff.mpr ⟨?_, by decide, fits_of_length (by decide)⟩⟩
  exact words_cons isSlash_slash

/-- A backspace. The file that is written is as long as before. -/
theorem not_rewrites_backspace : ∃ r,
    editFile (fun _ => some [104, 105]) (some fun _ => 7) clearStack [slash] [97]
        [backspace, newline] =
      some (Function.update (fun _ => some [104, 105]) r.wrote (some r.written), 0, some r) ∧
    ¬Rewrites [104, 105] [backspace, newline] r :=
  ⟨⟨fopenName clearStack [slash] [97], flFopenName [97], [104, 0], [1, 2, 0, 1]⟩, rfl,
    fun h => absurd h.text (by decide)⟩

end AthenX.Cmd
