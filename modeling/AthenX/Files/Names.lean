import Mathlib

/-!
# File names

The functions of `drivers/fs/fat32/fat_string.c` that split a path and compare two names. A C
string is the list of its characters, without the terminator.

Names are compared without regard to case, and to blanks in front of the extension. All that
the callers rely on is that a name compares equal to itself.
-/

namespace AthenX.Files

/-- A C string. -/
abbrev Text := List Char

/-! ### Splitting a path -/

/-- `FATFS_MAX_LONG_FILENAME`, the size of the name fields of a file handle. -/
def maxLongFilename : ℕ := 260

/-- `path_to_use` of `fl_fopen`: a relative path comes behind what the new block holds. -/
def pathToUse {α : Type} [DecidableEq α] (slash : α) (stale path : List α) : List α :=
  if path.head? = some slash then path else stale ++ slash :: path

/-- The separator of a path, and the path behind its root. -/
def rootOf : Text → Option (Char × Text)
  | [] => none
  | c :: path =>
      if c = '/' then some ('/', path)
      else if path[0]? = some ':' ∨ path[1]? = some '\\' then some ('\\', path.drop 2)
      else none

/-- The loop of `fatfs_total_path_levels`: the parts of a path, the file included. -/
def countParts (sep : Char) : Text → ℕ
  | [] => 0
  | c :: path =>
      if c = sep then countParts sep path + 1
      else if path.isEmpty then 1
      else countParts sep path

/-- `fatfs_total_path_levels`. Without a part it returns -1, the code for an error. -/
def totalPathLevels (path : Text) : Option ℕ :=
  match rootOf path with
  | none => none
  | some (sep, rest) => if countParts sep rest = 0 then none else some (countParts sep rest - 1)

/-- The loop of `fatfs_get_substring`. -/
def substring (sep : Char) (levelreq maxLen : ℕ) : Text → ℕ → Text → Text
  | [], _, output => output
  | c :: path, levels, output =>
      let levels := if c = sep then levels + 1 else levels
      substring sep levelreq maxLen path levels <|
        if levels = levelreq ∧ c ≠ sep ∧ output.length < maxLen - 1 then output ++ [c] else output

/-- `fatfs_get_substring`: the part of a path at a level, if it is not empty. -/
def getSubstring (path : Text) (levelreq maxLen : ℕ) : Option Text :=
  match rootOf path with
  | none => none
  | some (sep, rest) =>
      let output := substring sep levelreq maxLen rest 0 []
      if output.isEmpty then none else some output

/-- `fatfs_split_path`: the directory and the file name. -/
def splitPath (fullPath : Text) : Option (Text × Text) := do
  let levels ← totalPathLevels fullPath
  let filename ← getSubstring fullPath levels maxLongFilename
  if levels = 0 then some ([], filename)
  else
    let strindex := min (fullPath.length - filename.length) maxLongFilename
    some (fullPath.take (strindex - 1), filename)

/-! ### Comparing names -/

/-- A character as it is compared: capital letters as small ones. -/
def lower (c : Char) : ℕ := if 'A' ≤ c ∧ c ≤ 'Z' then c.toNat + 32 else c.toNat

/-- `FileString_StrCmpNoCase`, for at most `n` characters. -/
def strCmpNoCase : Text → Text → ℕ → ℤ
  | _, _, 0 => 0
  | s₁, s₂, n + 1 =>
      let diff : ℤ := (s₁.head?.elim 0 lower : ℕ) - (s₂.head?.elim 0 lower : ℕ)
      if diff ≠ 0 then diff
      else if s₁.isEmpty || s₂.isEmpty then 0
      else strCmpNoCase s₁.tail s₂.tail n

/-- The loop of `FileString_GetExtension`. -/
def extensionFrom : Text → ℕ → Option ℕ → Option ℕ
  | [], _, dotPos => dotPos
  | c :: s, i, dotPos => extensionFrom s (i + 1) (if c = '.' then some i else dotPos)

/-- `FileString_GetExtension`: the position of the last dot. -/
def getExtension (s : Text) : Option ℕ := extensionFrom s 0 none

/-- `FileString_TrimLength`: the length without blanks at the end. -/
def trimLength (s : Text) : ℕ → ℕ
  | 0 => 0
  | n + 1 => if s[n]? = some ' ' then trimLength s n else n + 1

/-- The comparison of the parts in front of the extensions. -/
def compareMain (a b : Text) (file1Len file2Len : ℕ) : Bool :=
  trimLength a file1Len = trimLength b file2Len && strCmpNoCase a b (trimLength a file1Len) = 0

/-- `fatfs_compare_names`. -/
def compareNames (a b : Text) : Bool :=
  match getExtension a, getExtension b with
  | none, none => compareMain a b a.length b.length
  | none, some _ => false
  | some _, none => false
  | some ext1Pos, some ext2Pos =>
      let ext1 := a.drop (ext1Pos + 1)
      let ext2 := b.drop (ext2Pos + 1)
      ext1.length = ext2.length && strCmpNoCase ext1 ext2 ext1.length = 0 &&
        compareMain a b ext1Pos ext2Pos

theorem strCmpNoCase_self : ∀ (n : ℕ) (s : Text), strCmpNoCase s s n = 0 := by
  intro n
  induction n with
  | zero => intro s; rfl
  | succ n ih =>
    intro s
    simp only [strCmpNoCase, Int.sub_self, ne_eq, not_true_eq_false, if_false]
    split
    · rfl
    · exact ih s.tail

/-- **A name compares equal to itself.** -/
theorem compareNames_self (s : Text) : compareNames s s = true := by
  cases h : getExtension s with
  | none => simp [compareNames, h, compareMain, strCmpNoCase_self]
  | some i => simp [compareNames, h, compareMain, strCmpNoCase_self]

example : compareNames ['f', 'i', 'l', 'e', ' ', ' ', '.', 'e'] ['F', 'i', 'l', 'e', '.', 'E'] := by
  decide

end AthenX.Files
