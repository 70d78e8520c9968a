import AthenX.Lib.Scan

/-!
# Writing the symbol map

`format_map_2.py`, which makes `debug.map` from the map of the linker and the source tree. It goes
through the lines with two variables: are we in a text section, and which object file is it from?
Each symbol is looked up in the C file, and the text between the parentheses behind its name is
taken for its parameters. An entry has five fields, or, without an object file, the address, the
name and a zero. Empty parameters are `void`, and those from missing files `none`.

A regular expression is matched as Python does it, the longest matches first. The letters and digits
outside of ASCII are given by a table.
-/

namespace AthenX.Debug

open Scan List

/-! ### Characters -/

/-- `str.isspace`, which is also what `\s` and `split` go by. -/
def pySpace (c : Char) : Bool :=
  (9 ≤ c.toNat && c.toNat ≤ 13) || (28 ≤ c.toNat && c.toNat ≤ 32) || c.toNat = 0x85 ||
    c.toNat = 0xA0 || c.toNat = 0x1680 || (0x2000 ≤ c.toNat && c.toNat ≤ 0x200A) ||
    c.toNat = 0x2028 || c.toNat = 0x2029 || c.toNat = 0x202F || c.toNat = 0x205F ||
    c.toNat = 0x3000

section

variable (alnum : Char → Bool)

/-- `\w`. -/
def isWord (c : Char) : Bool := c = '_' || c.isAlphanum || (128 ≤ c.toNat && alnum c)

/-- `str.strip`. -/
def strip (s : Text) : Text := ((s.dropWhile pySpace).reverse.dropWhile pySpace).reverse

/-! ### `parse_function_params` -/

/-- The ways to match a starred class at the start of a text, the longest first. -/
def starMatches (p : Char → Bool) : Text → List (Text × Text)
  | [] => [([], [])]
  | c :: s =>
      if p c then (starMatches p s).map (fun (t, r) => (c :: t, r)) ++ [([], c :: s)]
      else [([], c :: s)]

/-- `\b`, behind the character `prev`. -/
def wordBoundary (prev : Char) (s : Text) : Bool :=
  isWord alnum prev != s.head?.elim false (isWord alnum)

/-- `\(([^)]*)\)`: the text between the parentheses. -/
def parenthesized (s : Text) : Option Text :=
  if s.head? = some '(' ∧ s.tail.dropWhile (· ≠ ')') ≠ [] then some (s.tail.takeWhile (· ≠ ')'))
  else none

/-- The class `[\w\s\*]`. -/
def declarator (c : Char) : Bool := isWord alnum c || pySpace c || c = '*'

/-- The pattern of a function behind `^`, with what its group matches. -/
def matchFunction (name s : Text) : Option Text :=
  -- `\s*\w`
  (starMatches pySpace s).findSome? fun (_, s) => s.head?.bind fun c =>
    if isWord alnum c then
      -- `[\w\s\*]*\b`, and the name
      (starMatches (declarator alnum) s.tail).findSome? fun (t, s) =>
        if wordBoundary alnum (t.getLastD c) s && name.isPrefixOf s then
          -- `\s*\(([^)]*)\)`
          (starMatches pySpace (s.drop name.length)).findSome? fun (_, s) => parenthesized s
        else none
    else none

/-- The text from each newline on. -/
def afterNewlines : Text → List Text
  | [] => []
  | c :: s => if c = '\n' then s :: afterNewlines s else afterNewlines s

/-- `parse_function_params`, searched for at the beginnings of the lines. -/
def parseFunctionParams (content functionName : Text) : Option Text :=
  let starts := content :: afterNewlines content
  (starts.findSome? (matchFunction alnum functionName)).map fun params =>
    if strip params ≠ [] then strip params else "void".toList

/-! ### The lines of the map -/

/-- `readlines`. -/
def readLines : Text → List Text
  | [] => []
  | c :: s =>
      if c = '\n' then ['\n'] :: readLines s
      else match readLines s with
        | [] => [[c]]
        | l :: ls => (c :: l) :: ls

/-- The words of a text: `split`. -/
def words : Text → List Text
  | [] => []
  | c :: s =>
      if pySpace c then words s
      -- a word goes on where the next character is not a blank
      else if s.head?.all pySpace then [c] :: words s
      else match words s with
        | [] => [[c]]
        | w :: ws => (c :: w) :: ws

/-- Is the first text somewhere in the second one? -/
def contains (t s : Text) : Bool := s.tails.any t.isPrefixOf

/-- The C file of a `.text` line: the last word, with `.c` for `.o`. -/
def objectPath (line : Text) : Text :=
  let last := (words line).getLastD []
  if ".o".toList.isSuffixOf last then last.take (last.length - 2) ++ ".c".toList else []

/-- `^\.\w+`. -/
def startsSection (line : Text) : Bool :=
  line.head? = some '.' && line.tail.head?.any (isWord alnum)

/-- `kill_pattern`. -/
def killed (line : Text) : Bool :=
  contains "*fill*".toList line || contains "*(.rodata)".toList line ||
    contains ".rodata".toList line

/-- `^\s+0x([0-9a-fA-F]+)\s+([^\s]+)`: the address and the name. -/
def symbolOf (line : Text) : Option (Text × Text) :=
  let s := line.dropWhile pySpace
  let address := (s.drop 2).takeWhile isHex
  let s' := (s.drop 2).dropWhile isHex
  let name := (s'.dropWhile pySpace).takeWhile fun c => !pySpace c
  if line.takeWhile pySpace ≠ [] ∧ "0x".toList.isPrefixOf s ∧ address ≠ [] ∧
      s'.takeWhile pySpace ≠ [] ∧ name ≠ [] then some (address, name)
  else none

/-- `in_text_section` and `current_file_path`. -/
structure MapState where
  inTextSection : Bool
  currentFilePath : Text
  deriving DecidableEq, Repr

/-- A symbol of a text section. The C file is empty without an object file. -/
structure Symbol where
  lineNum : ℕ
  address : Text
  name : Text
  path : Text
  deriving DecidableEq, Repr

/-- The body of the loop. -/
def mapLine (st : MapState) (lineNum : ℕ) (line : Text) : MapState × Option Symbol :=
  if " .text".toList.isPrefixOf line || ".text".toList.isPrefixOf line then
    (⟨true, objectPath line⟩, none)
  else if st.inTextSection && startsSection alnum line then
    ({ st with inTextSection := false }, none)
  else if st.inTextSection && killed line then ({ st with inTextSection := false }, none)
  else if st.inTextSection then
    match symbolOf line with
    | none => (st, none)
    | some (address, name) =>
        if st.currentFilePath ≠ [] ∧ (address = "0000000000000000".toList ∨
            name = "__kernel_text_section_end".toList) then
          ({ st with currentFilePath := "INVALID".toList }, none)
        else (st, some ⟨lineNum, address, name, st.currentFilePath⟩)
  else (st, none)

/-- The loop from line `n` on. -/
def symbolsFrom : MapState → ℕ → List Text → List Symbol
  | _, _, [] => []
  | st, n, l :: ls =>
      (mapLine alnum st n l).2.toList ++ symbolsFrom (mapLine alnum st n l).1 (n + 1) ls

/-- The symbols of a map. -/
def symbols (map : Text) : List Symbol := symbolsFrom alnum ⟨false, []⟩ 0 (readLines map)

/-! ### The entries -/

/-- What there is at a path. -/
inductive Source where
  | missing
  /-- A directory, or a file that is not text: the program ends with an exception. -/
  | unreadable
  | file (content : Text)

/-- An entry of the symbol map. -/
inductive Entry where
  | full (address path name params : Text) (lineNum : ℕ)
  | bare (address name : Text)
  deriving DecidableEq, Repr

/-- The text of an entry. -/
def Entry.text : Entry → Text
  | .full address path name params lineNum =>
      address ++ ':' :: (path ++ ':' :: (name ++ ':' :: (params ++ ':' :: Nat.toDigits 10 lineNum)))
  | .bare address name => address ++ ':' :: ':' :: (name ++ ':' :: "0".toList)

/-- `os.path.join`. -/
def join (a b : Text) : Text :=
  if b.head? = some '/' then b
  else if a = [] ∨ a.getLast? = some '/' then a ++ b
  else a ++ '/' :: b

/-- `c_file_path`: the path without the length of `./obj`. -/
def cFilePath (sourceDir path : Text) : Text := "./".toList ++ (join sourceDir path).drop 5

/-- `removesuffix(".c")`. -/
def removeSuffix (s : Text) : Text :=
  if ".c".toList.isSuffixOf s then s.take (s.length - 2) else s

/-- `use_path`: the path of an assembler file. -/
def usePath (sourceDir path : Text) : Text :=
  "./".toList ++ (removeSuffix (cFilePath sourceDir path) ++ ".s".toList).drop 5

variable (tree : Text → Source) (sourceDir : Text)

/-- What is written for a symbol, if anything. The outer `none` is an exception. -/
def Symbol.entry (x : Symbol) : Option (Option Entry) :=
  if x.path = [] then some (some (.bare x.address x.name))
  else match tree (cFilePath sourceDir x.path) with
    | .unreadable => none
    | .missing => some (some (.full x.address (usePath sourceDir x.path) x.name "none".toList
        x.lineNum))
    | .file content => some ((parseFunctionParams alnum content x.name).map fun params =>
        .full x.address x.path x.name params x.lineNum)

/-- An assignment to a key of a dictionary: a new key comes last. -/
def assign (a : Text) (e : Entry) : List (Text × Entry) → List (Text × Entry)
  | [] => [(a, e)]
  | (b, f) :: d => if b = a then (a, e) :: d else (b, f) :: assign a e d

/-- The dictionary `functions` after the symbols. -/
def functionsOf : List Symbol → List (Text × Entry) → Option (List (Text × Entry))
  | [], d => some d
  | x :: xs, d =>
      (x.entry alnum tree sourceDir).bind fun e =>
        functionsOf xs (e.elim d fun e => assign x.address e d)

/-- `parse_map_file`: the entries that are written. -/
def parseMapFile (map : Text) : Option (List Entry) :=
  (functionsOf alnum tree sourceDir (symbols alnum map) []).map (·.map Prod.snd)

/-- The file that is written. -/
def output (es : List Entry) : Text := es.flatMap fun e => e.text ++ ['\n']

end

/-! ### The symbols -/

section

variable {alnum : Char → Bool} {tree : Text → Source} {sourceDir map : Text}

/-- An address is a hexadecimal number, and there is a name. -/
def Symbol.Valid (x : Symbol) : Prop :=
  x.address ≠ [] ∧ (∀ c ∈ x.address, isHex c = true) ∧ x.name ≠ []

theorem valid_of_mapLine {st : MapState} {n : ℕ} {line : Text} {x : Symbol}
    (h : (mapLine alnum st n line).2 = some x) : x.Valid := by
  unfold mapLine at h
  split at h
  · cases h
  split at h
  · cases h
  split at h
  · cases h
  split at h
  swap
  · cases h
  split at h
  · cases h
  next address name hsymbol =>
  split at h
  · cases h
  -- the only way out with a symbol
  cases h
  simp only [symbolOf] at hsymbol
  split at hsymbol
  · next hok =>
    cases hsymbol
    exact ⟨hok.2.2.1, fun c hc => mem_takeWhile_imp hc, hok.2.2.2.2⟩
  · cases hsymbol

theorem of_mem_symbolsFrom {x : Symbol} : ∀ {ls : List Text} {st : MapState} {n : ℕ},
    x ∈ symbolsFrom alnum st n ls → x.Valid := by
  intro ls
  induction ls with
  | nil => intro st n hx; cases hx
  | cons l ls ih =>
    intro st n hx
    rcases mem_append.mp hx with hfirst | hrest
    · exact valid_of_mapLine (Option.mem_toList.mp hfirst)
    · exact ih hrest

/-! ### The dictionary -/

variable {xs : List Symbol} {x : Symbol} {a : Text} {e : Entry} {d d' : List (Text × Entry)}

/-- The symbols that something is written for, and nothing for a later one with the same address. -/
def Written (alnum : Char → Bool) (tree : Text → Source) (sourceDir : Text) (xs : List Symbol)
    (x : Symbol) : Prop :=
  ∃ pre post, xs = pre ++ x :: post ∧ (∃ e, x.entry alnum tree sourceDir = some (some e)) ∧
    ∀ y ∈ post, y.address = x.address → y.entry alnum tree sourceDir = some none

theorem written_cons_iff {y : Symbol} : Written alnum tree sourceDir (y :: xs) x ↔
    Written alnum tree sourceDir xs x ∨
      y = x ∧ (∃ e, x.entry alnum tree sourceDir = some (some e)) ∧
      ∀ z ∈ xs, z.address = x.address → z.entry alnum tree sourceDir = some none := by
  constructor
  · rintro ⟨pre, post, hxs, he, hlater⟩
    cases pre with
    | nil =>
      cases hxs
      exact .inr ⟨rfl, he, hlater⟩
    | cons z pre =>
      cases hxs
      exact .inl ⟨pre, post, rfl, he, hlater⟩
  · rintro (⟨pre, post, rfl, he, hlater⟩ | ⟨rfl, he, hlater⟩)
    · exact ⟨y :: pre, post, rfl, he, hlater⟩
    · exact ⟨[], xs, rfl, he, hlater⟩

theorem Written.mem (h : Written alnum tree sourceDir xs x) : x ∈ xs := by
  obtain ⟨pre, post, rfl, -⟩ := h
  exact mem_append_right pre mem_cons_self

theorem mem_keys_assign {b : Text} :
    b ∈ (assign a e d).map Prod.fst ↔ b = a ∨ b ∈ d.map Prod.fst := by
  induction d with
  | nil => simp [assign]
  | cons y d ih =>
    rw [assign]
    split
    · next hc =>
      subst hc
      simp
    · rw [map_cons, mem_cons, ih, map_cons, mem_cons, or_left_comm]

theorem nodup_assign (hd : (d.map Prod.fst).Nodup) : ((assign a e d).map Prod.fst).Nodup := by
  induction d with
  | nil => simp [assign]
  | cons y d ih =>
    obtain ⟨hc, hd⟩ := nodup_cons.mp hd
    rw [assign]
    split
    · next hca =>
      subst hca
      exact nodup_cons.mpr ⟨hc, hd⟩
    · next hca =>
      refine nodup_cons.mpr ⟨fun hmem => ?_, ih hd⟩
      rcases mem_keys_assign.mp hmem with hca' | hmem
      · exact hca hca'
      · exact hc hmem

theorem mem_assign {b : Text} {f : Entry} (hd : (d.map Prod.fst).Nodup) :
    (b, f) ∈ assign a e d ↔ b = a ∧ f = e ∨ b ≠ a ∧ (b, f) ∈ d := by
  induction d with
  | nil => simp [assign]
  | cons y d ih =>
    obtain ⟨c, g⟩ := y
    obtain ⟨hc, hd⟩ := nodup_cons.mp hd
    have hkey : (b, f) ∈ d → b ≠ c := by
      rintro hmem rfl
      exact hc (mem_map.mpr ⟨(b, f), hmem, rfl⟩)
    rw [assign]
    split
    · next hca =>
      subst hca
      constructor
      · intro hmem
        rcases mem_cons.mp hmem with heq | hmem
        · exact .inl (Prod.mk.inj heq)
        · exact .inr ⟨hkey hmem, mem_cons_of_mem _ hmem⟩
      · rintro (⟨rfl, rfl⟩ | ⟨hne, hmem⟩)
        · exact mem_cons_self
        · rcases mem_cons.mp hmem with heq | hmem
          · exact absurd (Prod.mk.inj heq).1 hne
          · exact mem_cons_of_mem _ hmem
    · next hca =>
      rw [mem_cons, ih hd, mem_cons]
      constructor
      · rintro (heq | hsame | ⟨hne, hmem⟩)
        · exact .inr ⟨(Prod.mk.inj heq).1 ▸ hca, .inl heq⟩
        · exact .inl hsame
        · exact .inr ⟨hne, .inr hmem⟩
      · rintro (hsame | ⟨hne, heq | hmem⟩)
        · exact .inr (.inl hsame)
        · exact .inl heq
        · exact .inr (.inr ⟨hne, hmem⟩)

theorem exists_written_cons_iff : (∃ z, Written alnum tree sourceDir (x :: xs) z ∧ z.address = a ∧
      z.entry alnum tree sourceDir = some (some e)) ↔
    (∃ z, Written alnum tree sourceDir xs z ∧ z.address = a ∧
      z.entry alnum tree sourceDir = some (some e)) ∨
    x.address = a ∧ x.entry alnum tree sourceDir = some (some e) ∧
      ∀ y ∈ xs, y.address = a → y.entry alnum tree sourceDir = some none := by
  constructor
  · rintro ⟨z, hz, rfl, he⟩
    rcases written_cons_iff.mp hz with hz | ⟨rfl, -, hlater⟩
    · exact .inl ⟨z, hz, rfl, he⟩
    · exact .inr ⟨rfl, he, hlater⟩
  · rintro (⟨z, hz, rfl, he⟩ | ⟨rfl, he, hlater⟩)
    · exact ⟨z, written_cons_iff.mpr (.inl hz), rfl, he⟩
    · exact ⟨x, written_cons_iff.mpr (.inr ⟨rfl, ⟨e, he⟩, hlater⟩), rfl, he⟩

/-- The dictionary after some symbols: their entries, and those before that were not replaced. -/
theorem mem_functionsOf : ∀ {xs : List Symbol} {d : List (Text × Entry)},
    functionsOf alnum tree sourceDir xs d = some d' → (d.map Prod.fst).Nodup →
    ((a, e) ∈ d' ↔ (∃ x, Written alnum tree sourceDir xs x ∧ x.address = a ∧
        x.entry alnum tree sourceDir = some (some e)) ∨
      (a, e) ∈ d ∧ ∀ y ∈ xs, y.address = a → y.entry alnum tree sourceDir = some none) := by
  intro xs
  induction xs with
  | nil =>
    intro d h hd
    cases h
    refine ⟨fun hmem => .inr ⟨hmem, fun y hy => (nomatch hy)⟩, ?_⟩
    rintro (⟨x, hx, -⟩ | ⟨hmem, -⟩)
    · cases hx.mem
    · exact hmem
  | cons x xs ih =>
    intro d h hd
    obtain ⟨f, hf, h⟩ := Option.bind_eq_some_iff.mp h
    rw [exists_written_cons_iff, forall_mem_cons, hf]
    cases f with
    | none =>
      rw [ih h hd]
      simp
    | some f =>
      rw [ih h (nodup_assign hd), Option.elim_some, mem_assign hd]
      by_cases ha : x.address = a
      · simp [ha, eq_comm]
      · simp [ha, Ne.symm ha]

/-- **The entries in the file** are those of the symbols that no later one replaces. -/
theorem mem_parseMapFile_iff {es : List Entry}
    (h : parseMapFile alnum tree sourceDir map = some es) :
    e ∈ es ↔ ∃ x, Written alnum tree sourceDir (symbols alnum map) x ∧
      x.entry alnum tree sourceDir = some (some e) := by
  obtain ⟨d, hd, rfl⟩ := Option.map_eq_some_iff.mp h
  constructor
  · intro he
    obtain ⟨⟨a, e⟩, hmem, rfl⟩ := mem_map.mp he
    rcases (mem_functionsOf hd nodup_nil).mp hmem with ⟨x, hx, -, he⟩ | ⟨hnil, -⟩
    · exact ⟨x, hx, he⟩
    · cases hnil
  · rintro ⟨x, hx, he⟩
    exact mem_map.mpr ⟨(x.address, e),
      (mem_functionsOf hd nodup_nil).mpr (.inl ⟨x, hx, rfl, he⟩), rfl⟩

end

end AthenX.Debug
