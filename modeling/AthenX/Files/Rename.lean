import Mathlib

/-!
# Renaming a file

`rename` of `drivers/fs/fat32/fat_filelib.c` copies the file up to `EOF`, which is minus one, and
then removes the old one. At the end of a file `fl_fgetc` passes on the minus five of `fl_fread`, so
the loop never sees `EOF` and goes on to append bytes 0xFB. Every call of the library may fail.
-/

namespace AthenX.Rename

/-! ### The source -/

/-- Which calls succeed. -/
structure Outcome where
  openOld : Bool
  openNew : Bool
  /-- The write of a byte, by the number of bytes that were written or tried before. -/
  put : ℕ → Bool
  remove : Bool

variable {Name : Type} [DecidableEq Name]

/-- The character at the end of a file, for the callers of `fl_fgetc`. -/
def eof : Int := -1

/-- `fl_fgetc` at position `i` of a file: the result, and the position after it. -/
def flFgetc (file : List UInt8) (i : ℕ) : Int × ℕ :=
  match file[i]? with
  | some c => (c.toNat, i + 1)
  | none => (-5, i)

/-- The byte that `fl_fputc` writes. -/
def lowByte (c : Int) : UInt8 := UInt8.ofNat (c % 256).toNat

/-- The loop of `rename` from position `i` of the old file on, after `n` writes. -/
def copy (o : Outcome) (old new : Name) :
    ℕ → ℕ → ℕ → (Name → Option (List UInt8)) → Option (Name → Option (List UInt8))
  | 0, _, _, _ => none
  | fuel + 1, i, n, d =>
      let r := flFgetc ((d old).getD []) i
      if r.1 = eof then some d
      else copy o old new fuel r.2 (n + 1)
        (if o.put n then Function.update d new ((d new).map (· ++ [lowByte r.1])) else d)

/-- The content is under one of the names, and after a zero under the new one only. -/
def Kept (old new : Name) (s : List UInt8) (x : (Name → Option (List UInt8)) × Int) : Prop :=
  (x.1 old = some s ∨ x.1 new = some s) ∧
    (x.2 = 0 → x.1 new = some s ∧ (old ≠ new → x.1 old = none))

variable {o : Outcome} {old new : Name} {d : Name → Option (List UInt8)} {s : List UInt8}

end AthenX.Rename
