import AthenX.Debug.FormatMap

/-!
# Reading the symbol map

`find_function` of `kernel/debug/debug.c` looks up an address in the file that `format_map_2.py` has
written, line by line with five fields. The two sides agree on an entry if its fields are not empty
and free of colons and newlines. Parameters may have both, and an entry without an object file has
no path. The fields fit the buffers, and characters outside of ASCII are characters. How numbers are
read is a parameter: after the C standard, or as `sscanf_` of `drivers/io/scanf.c` does it.
-/

namespace AthenX.Debug

open Scan List Option

/-! ### The source -/

/-- The fields of a line. -/
structure Record where
  address : ℕ
  path : Text
  name : Text
  params : Text
  lineNum : ℤ
  deriving DecidableEq, Repr

/-- `iaton_`: the number in 64 bits, unless it is noticed to become too large. -/
def iaton (base : UInt64) (value : Char → ℕ) : Text → UInt64 → Option UInt64
  | [], r => some r
  | c :: s, r =>
      let next := r * base + UInt64.ofNat (value c)
      if next < r then none else iaton base value s next

/-- `%x` of `sscanf_`: the low 32 bits, and a zero for `0x` without digits and in front of a `b`. -/
def readHex (s : Text) : Option (ℕ × Text) :=
  let (minus, s) := sign (s.dropWhile isSpace)
  let digits := (radix s).takeWhile isHex
  if s.head? = some '0' ∧ (s.tail.head? = some 'b' ∨ s.tail.head? = some 'B') then some (0, s.tail)
  else if digits = [] ∧ radix s = s then none
  else
    let r := match iaton 16 (fun c => (hexDigit c).getD 0) digits 0 with
      | some r => if minus then -r else r
      | none => -1
    some (r.toUInt32.toNat, (radix s).dropWhile isHex)

/-- `%d` of `sscanf_`: the low 32 bits of a number that is cut to the range of 64. -/
def readDec (s : Text) : Option (ℤ × Text) :=
  let (minus, s) := sign (s.dropWhile isSpace)
  let digits := s.takeWhile Char.isDigit
  if digits = [] then none
  else
    let limit := if minus then Int64.minValue else Int64.maxValue
    let r := match iaton 10 (fun c => c.toNat - 48) digits 0 with
      | some r => if r.toInt64 < 0 then limit else if minus then -r.toInt64 else r.toInt64
      | none => limit
    some (r.toInt32.toInt, s.dropWhile Char.isDigit)

/-- `sscanf_`. -/
def kernel : Readers := ⟨readHex, readDec⟩

/-- The format of a line. -/
def format : List Directive :=
  [.hex, .lit ':', .except ':', .lit ':', .except ':', .lit ':', .except ':', .lit ':', .dec]

/-- A line, if all five fields are read. -/
def lineRecord (R : Readers) (line : Text) : Option Record :=
  match sscanf R format line with
  | [.nat address, .text path, .text name, .text params, .int lineNum] =>
      some ⟨address, path, name, params, lineNum⟩
  | _ => none

/-- The lines of the map, up to the end of the string. -/
def readMap (R : Readers) (buffer : Text) : List Record :=
  (tokens '\n' (buffer.takeWhile (· ≠ '\x00'))).filterMap (lineRecord R)

/-- The search for the largest address that is not behind the given one. -/
def closest (address : ℕ) : List Record → ℕ → Option Record → Option Record
  | [], _, result => result
  | r :: rs, closestAddress, result =>
      if r.address ≤ address ∧ closestAddress < r.address then
        closest address rs r.address (some r)
      else closest address rs closestAddress result

/-- `find_function`. -/
def findFunction (R : Readers) (buffer : Text) (address : ℕ) : Option Record :=
  if 0x01000000 < address then none else closest address (readMap R buffer) 0 none

/-! ### The property and the condition -/

/-- What an entry says. Without an object file there is no path and no parameter. -/
def Entry.record : Entry → Record
  | .full address path name params lineNum => ⟨hexVal address, path, name, params, lineNum⟩
  | .bare address name => ⟨hexVal address, [], name, [], 0⟩

/-- An entry is read back as one record that says the same. -/
def ReadBack (e : Entry) : Prop := readMap standard (e.text ++ ['\n']) = [e.record]

/-- A text without colons, newlines and zeros. -/
def Plain (t : Text) : Prop := ∀ c ∈ t, c ≠ ':' ∧ c ≠ '\n' ∧ c ≠ '\x00'

instance (t : Text) : Decidable (Plain t) := List.decidableBAll _ t

instance (e : Entry) : Decidable (ReadBack e) := inferInstanceAs (Decidable (_ = _))

/-- The symbols whose entries are read back: with an object file, numbers in range, and plain texts.
-/
def Readable (alnum : Char → Bool) (tree : Text → Source) (sourceDir : Text) (x : Symbol) : Prop :=
  x.path ≠ [] ∧ hexVal x.address < 2 ^ 32 ∧ x.lineNum < 2 ^ 31 ∧ Plain x.name ∧
    match tree (cFilePath sourceDir x.path) with
    | .file content => Plain x.path ∧
        ∀ params, parseFunctionParams alnum content x.name = some params → Plain params
    | _ => Plain (usePath sourceDir x.path)

/-! ### What is read -/

section

variable {buffer line : Text} {r : Record}

theorem plain_of_sscanf {t : Text} (ht : .text t ∈ sscanf standard format line)
    (hline : '\n' ∉ line ∧ '\x00' ∉ line) : t ≠ [] ∧ Plain t := by
  obtain ⟨hne, hin, c, hc, hnot⟩ := sound_of_mem_sscanf ht
  obtain rfl : c = ':' := by simpa [format] using hc
  refine ⟨hne, fun d hd => ⟨?_, ?_, ?_⟩⟩
  · rintro rfl
    exact hnot hd
  · rintro rfl
    exact hline.1 (hin.subset hd)
  · rintro rfl
    exact hline.2 (hin.subset hd)

/-- **A record that is read** has plain fields that are not empty, and numbers in range. -/
theorem plain_of_mem_readMap (hr : r ∈ readMap standard buffer) :
    r.address < 2 ^ 32 ∧ r.lineNum < 2 ^ 31 ∧ r.path ≠ [] ∧ Plain r.path ∧ Plain r.name ∧
      Plain r.params := by
  obtain ⟨line, hline, hr⟩ := mem_filterMap.mp hr
  obtain ⟨hnewline, hsub⟩ := of_mem_tokens hline
  have hplain : '\n' ∉ line ∧ '\x00' ∉ line := by
    refine ⟨hnewline, fun hz => ?_⟩
    have := mem_takeWhile_imp (hsub hz)
    simp at this
  unfold lineRecord at hr
  split at hr
  · next address path name params lineNum heq =>
    cases hr
    have hmem : ∀ v ∈ [Value.nat address, .text path, .text name, .text params, .int lineNum],
        v ∈ sscanf standard format line := fun v hv => heq ▸ hv
    have haddress : Sound format line (.nat address) := sound_of_mem_sscanf (hmem _ (by simp))
    have hlineNum : Sound format line (.int lineNum) := sound_of_mem_sscanf (hmem _ (by simp))
    obtain ⟨hne, hpath⟩ := plain_of_sscanf (hmem (.text path) (by simp)) hplain
    have hname := plain_of_sscanf (hmem (.text name) (by simp)) hplain
    have hparams := plain_of_sscanf (hmem (.text params) (by simp)) hplain
    exact ⟨haddress, hlineNum.2, hne, hpath, hname.2, hparams.2⟩
  · cases hr

end

/-! ### What is written -/

section

variable {address path name params : Text} {n : ℕ}

theorem Plain.not_mem {t : Text} (h : Plain t) : ':' ∉ t ∧ '\n' ∉ t ∧ '\x00' ∉ t :=
  ⟨fun hc => (h _ hc).1 rfl, fun hc => (h _ hc).2.1 rfl, fun hc => (h _ hc).2.2 rfl⟩

theorem lineRecord_full (ha : address ≠ []) (hhex : ∀ c ∈ address, isHex c = true)
    (hlt : hexVal address < 2 ^ 32) (hn : n < 2 ^ 31) (hpath : path ≠ []) (hname : name ≠ [])
    (hparams : params ≠ []) (hp1 : Plain path) (hp2 : Plain name) (hp3 : Plain params) :
    lineRecord standard (Entry.full address path name params n).text =
      some (Entry.full address path name params n).record := by
  have hscan : sscanf standard format (Entry.full address path name params n).text =
      [.nat (hexVal address), .text path, .text name, .text params, .int n] := by
    rw [format, Entry.text, sscanf_hex ha hhex (by decide) (by decide) hlt, sscanf_lit,
      sscanf_except _ hpath hp1.not_mem.1, sscanf_lit, sscanf_except _ hname hp2.not_mem.1,
      sscanf_lit, sscanf_except _ hparams hp3.not_mem.1, sscanf_lit, sscanf_dec hn]
  unfold lineRecord
  rw [hscan]
  rfl

/-- A line of its own from which the entry is read. -/
structure Good (e : Entry) : Prop where
  newline : '\n' ∉ e.text
  zero : '\x00' ∉ e.text
  record : lineRecord standard e.text = some e.record

theorem good_full (ha : address ≠ []) (hhex : ∀ c ∈ address, isHex c = true)
    (hlt : hexVal address < 2 ^ 32) (hn : n < 2 ^ 31) (hpath : path ≠ []) (hname : name ≠ [])
    (hparams : params ≠ []) (hp1 : Plain path) (hp2 : Plain name) (hp3 : Plain params) :
    Good (.full address path name params n) := by
  -- neither a newline nor a zero is a digit
  have hdigit : ∀ c : Char, isHex c = false → c ∉ address ∧ c ∉ Nat.toDigits 10 n := by
    refine fun c hc => ⟨fun hmem => ?_, fun hmem => ?_⟩
    · rw [hhex c hmem] at hc
      cases hc
    · rw [isHex_of_isDigit (Nat.isDigit_of_mem_toDigits (by decide) (by decide) hmem)] at hc
      cases hc
  have hline := hdigit '\n' (by decide)
  have hzero := hdigit '\x00' (by decide)
  refine ⟨?_, ?_, lineRecord_full ha hhex hlt hn hpath hname hparams hp1 hp2 hp3⟩
  · simp [Entry.text, hline, hp1.not_mem, hp2.not_mem, hp3.not_mem]
  · simp [Entry.text, hzero, hp1.not_mem, hp2.not_mem, hp3.not_mem]

variable {e : Entry}

theorem Good.readMap_append (hg : Good e) (s : Text) :
    readMap standard (e.text ++ '\n' :: s) = e.record :: readMap standard s := by
  have hne : e.text ≠ [] := fun hnil => by
    have hnone : lineRecord standard [] = none := by decide
    have hsome := hg.record
    rw [hnil] at hsome
    cases hsome
  have hstring : (e.text ++ '\n' :: s).takeWhile (· ≠ '\x00') =
      e.text ++ '\n' :: s.takeWhile (· ≠ '\x00') := by
    rw [takeWhile_append_of_pos fun c hc => ?_, takeWhile_cons_of_pos (by decide)]
    simp only [decide_eq_true_eq]
    rintro rfl
    exact hg.zero hc
  rw [readMap, hstring, tokens_append, tokens_eq_singleton hne hg.newline,
    singleton_append, filterMap_cons_some hg.record]
  rfl

theorem readMap_output {es : List Entry} (hes : ∀ e ∈ es, Good e) :
    readMap standard (output es) = es.map Entry.record := by
  induction es with
  | nil => rfl
  | cons e es ih =>
    obtain ⟨he, hes⟩ := forall_mem_cons.mp hes
    have hout : output (e :: es) = e.text ++ '\n' :: output es := by simp [output]
    rw [hout, he.readMap_append, ih hes, map_cons]

end

/-! ### The two sides -/

section

variable {alnum : Char → Bool} {tree : Text → Source} {sourceDir map : Text} {x : Symbol}
  {e : Entry} {es : List Entry}

theorem parseFunctionParams_ne_nil {content name params : Text}
    (h : parseFunctionParams alnum content name = some params) : params ≠ [] := by
  obtain ⟨group, -, rfl⟩ := map_eq_some_iff.mp h
  split
  · assumption
  · decide

theorem good_of_readable (hx : x.Valid) (he : x.entry alnum tree sourceDir = some (some e))
    (hr : Readable alnum tree sourceDir x) : Good e := by
  obtain ⟨ha, hhex, hname⟩ := hx
  obtain ⟨hpath, hlt, hn, hp, hfile⟩ := hr
  rw [Symbol.entry, if_neg hpath] at he
  cases htree : tree (cFilePath sourceDir x.path) with
  | unreadable =>
    rw [htree] at he
    cases he
  | missing =>
    rw [htree] at he hfile
    cases he
    exact good_full ha hhex hlt hn (by simp [usePath]) hname (by decide) hfile hp (by simp [Plain])
  | file content =>
    rw [htree] at he hfile
    obtain ⟨params, hparams, rfl⟩ := map_eq_some_iff.mp (some.inj he)
    exact good_full ha hhex hlt hn hpath hname (parseFunctionParams_ne_nil hparams) hfile.1 hp
      (hfile.2 params hparams)

theorem readable_of_readBack (he : x.entry alnum tree sourceDir = some (some e))
    (hb : ReadBack e) : Readable alnum tree sourceDir x := by
  have hmem : e.record ∈ readMap standard (e.text ++ ['\n']) := by
    rw [hb]
    exact mem_singleton_self _
  obtain ⟨hlt, hn, hne, hpath, hname, hparams⟩ := plain_of_mem_readMap hmem
  rw [Symbol.entry] at he
  split at he
  · -- without an object file the path would be empty
    cases he
    exact absurd rfl hne
  · next hx =>
    cases htree : tree (cFilePath sourceDir x.path) with
    | unreadable =>
      rw [htree] at he
      cases he
    | missing =>
      rw [htree] at he
      cases he
      change (x.lineNum : ℤ) < 2 ^ 31 at hn
      refine ⟨hx, hlt, by omega, hname, ?_⟩
      rw [htree]
      exact hpath
    | file content =>
      rw [htree] at he
      obtain ⟨params, hparams', rfl⟩ := map_eq_some_iff.mp (some.inj he)
      change (x.lineNum : ℤ) < 2 ^ 31 at hn
      refine ⟨hx, hlt, by omega, hname, ?_⟩
      rw [htree]
      refine ⟨hpath, fun params' h => ?_⟩
      cases hparams'.symm.trans h
      exact hparams

/-- **Writer and reader agree if and only if the symbols are readable**, and then the file is read
back as a whole. -/
theorem readBack_iff (h : parseMapFile alnum tree sourceDir map = some es) :
    ((∀ e ∈ es, ReadBack e) ↔ ∀ x, Written alnum tree sourceDir (symbols alnum map) x →
      Readable alnum tree sourceDir x) ∧
    ((∀ e ∈ es, ReadBack e) → readMap standard (output es) = es.map Entry.record) := by
  have hentry : ∀ x, Written alnum tree sourceDir (symbols alnum map) x → ∃ e ∈ es,
      x.entry alnum tree sourceDir = some (some e) := by
    rintro x hx
    obtain ⟨pre, post, -, ⟨e, he⟩, -⟩ := id hx
    exact ⟨e, (mem_parseMapFile_iff h).mpr ⟨x, hx, he⟩, he⟩
  have hreadable : (∀ e ∈ es, ReadBack e) → ∀ x,
      Written alnum tree sourceDir (symbols alnum map) x → Readable alnum tree sourceDir x := by
    intro hall x hx
    obtain ⟨e, hmem, he⟩ := hentry x hx
    exact readable_of_readBack he (hall e hmem)
  have hgood : (∀ x, Written alnum tree sourceDir (symbols alnum map) x →
      Readable alnum tree sourceDir x) → ∀ e ∈ es, Good e := by
    intro hall e hmem
    obtain ⟨x, hx, he⟩ := (mem_parseMapFile_iff h).mp hmem
    exact good_of_readable (of_mem_symbolsFrom hx.mem) he (hall x hx)
  refine ⟨⟨hreadable, fun hall e hmem => (hgood hall e hmem).readMap_append []⟩, fun hall => ?_⟩
  exact readMap_output (hgood (hreadable hall))

end

/-! ### One function -/

/-- The map of a program with one function. -/
def oneFunction : Text := ".text obj/k.o\n 0x10 f\n".toList

/-- A source tree with one file. -/
def oneFile (content : Text) (path : Text) : Source :=
  if path = ".//k.c".toList then .file content else .missing

/-- What is written for a function `f`. -/
abbrev entryWith (params : String) : Entry :=
  .full "10".toList "obj/k.c".toList "f".toList params.toList 1

/-- A function with one parameter is read back. -/
theorem readBack_iff_oneFunction :
    parseMapFile (fun _ => false) (oneFile "int f(int n)\n".toList) "./".toList oneFunction =
      some [entryWith "int n"] ∧
    ReadBack (entryWith "int n") := by
  have hparse : parseMapFile (fun _ => false) (oneFile "int f(int n)\n".toList) "./".toList
      oneFunction = some [entryWith "int n"] := by
    decide +kernel
  refine ⟨hparse, (readBack_iff hparse).1.mpr (fun x hx => ?_) _ (mem_singleton_self _)⟩
  have hsymbols : symbols (fun _ => false) oneFunction =
      [⟨1, "10".toList, "f".toList, "obj/k.c".toList⟩] := by decide +kernel
  have hmem := hx.mem
  rw [hsymbols] at hmem
  obtain rfl := mem_singleton.mp hmem
  refine ⟨by decide, by decide, by decide, by decide, by decide, fun params hparams => ?_⟩
  have hfound : parseFunctionParams (fun _ => false) "int f(int n)\n".toList "f".toList =
      some "int n".toList := by decide +kernel
  cases hparams.symm.trans hfound
  decide

/-- A function whose parameters are on two lines is not. -/
theorem not_readBack_twoLines :
    parseMapFile (fun _ => false) (oneFile "int f(int n,\n  int m)\n".toList) "./".toList
      oneFunction = some [entryWith "int n,\n  int m"] ∧
    ¬ReadBack (entryWith "int n,\n  int m") :=
  ⟨by decide +kernel, by decide +kernel⟩

end AthenX.Debug
