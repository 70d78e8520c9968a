import AthenX.Debug.Search

/-!
# The parameters of a function

`parse_parameters` of `kernel/debug/debug.c` cuts the text at the commas, and each part at its first
space: the type ends behind the spaces and stars that follow, and the rest is the name. So a type of
several words is cut, and without a space the loop that copies the type runs out of the buffer.
-/

namespace AthenX.Debug

open Scan List

/-! ### The source -/

def removeLeadingWhitespace (s : Text) : Text := s.dropWhile isSpace

def removeTrailingWhitespace (s : Text) : Text := s.rdropWhile isSpace

def trim (s : Text) : Text := removeTrailingWhitespace (removeLeadingWhitespace s)

/-- A turn of the loop: the type and the name, unless it leaves a buffer. -/
def parseToken (token : Text) : Option (Text × Text) :=
  let token := trim token
  if ' ' ∈ token then
    let rest := (token.dropWhile (· ≠ ' ')).dropWhile fun c => c = ' ' || c = '*'
    if rest.length < 128 then some (trim (token.take (token.length - rest.length)), rest) else none
  else none

/-- The loop of `parse_parameters`, with `k` parameters to go. -/
def parseLoop : ℕ → Option (Text × Text) → List (Text × Text) → Option (List (Text × Text))
  | 0, _, params => some params
  | _, none, params => some params
  | k + 1, some (token, nextToken), params =>
      (parseToken token).bind fun p => parseLoop k (strtok ',' nextToken) (params ++ [p])

/-- `parse_parameters`. -/
def parseParameters (parms : Text) : Option (List (Text × Text)) :=
  if 256 ≤ parms.length then none
  else if parms = "void".toList then some []
  else parseLoop 10 (strtok ',' parms) []

/-! ### Declarators -/

/-- A declarator and the white space around it. -/
structure Declarator where
  lead : Text
  type : Text
  gap : Text
  name : Text
  trail : Text
  blank : ∀ c ∈ lead ++ gap ++ trail, isSpace c = true
  type_ne : type ≠ []
  trimmed : ∀ c, type.head? = some c ∨ type.getLast? = some c → isSpace c = false
  comma : ',' ∉ type
  ident : ∀ c ∈ name, c = '_' ∨ c.isAlphanum = true
  unnamed : name = [] → gap = []

namespace Declarator

variable (d : Declarator)

def text : Text := d.lead ++ (d.type ++ d.gap ++ d.name) ++ d.trail

/-- From the first space to the name there are only spaces and stars, and the name is short. -/
def Handled : Prop :=
  ' ' ∈ d.type ++ d.gap ∧
    (∀ c ∈ (d.type ++ d.gap).dropWhile (· ≠ ' '), c = ' ' ∨ c = '*') ∧ d.name.length < 128

end Declarator

/-- The text of a list of declarators. -/
def declarators : List Declarator → Text
  | [] => []
  | [d] => d.text
  | d :: e :: ds => d.text ++ ',' :: declarators (e :: ds)

/-! ### One declarator -/

theorem dropWhile_blank {lead x : Text} (hlead : ∀ c ∈ lead, isSpace c = true)
    (hx : ∀ c, x.head? = some c → isSpace c = false) : (lead ++ x).dropWhile isSpace = x := by
  rw [dropWhile_append_of_pos hlead]
  cases x with
  | nil => rfl
  | cons c x => exact dropWhile_cons_of_neg (by simp [hx c rfl])

theorem trim_append {lead x trail : Text} (hlead : ∀ c ∈ lead, isSpace c = true)
    (htrail : ∀ c ∈ trail, isSpace c = true) (hne : x ≠ [])
    (hx : ∀ c, x.head? = some c ∨ x.getLast? = some c → isSpace c = false) :
    trim (lead ++ x ++ trail) = x := by
  have hfront : removeLeadingWhitespace (lead ++ x ++ trail) = x ++ trail := by
    rw [append_assoc]
    refine dropWhile_blank hlead fun c hc => hx c (.inl ?_)
    rwa [List.head?_append_of_ne_nil _ hne] at hc
  rw [trim, hfront, removeTrailingWhitespace, List.rdropWhile, reverse_append,
    dropWhile_blank (by simpa using htrail) fun c hc => hx c (.inr ?_), reverse_reverse]
  rwa [List.head?_reverse] at hc

namespace Declarator

variable (d : Declarator)

theorem isspace_ident {c : Char} (h : c = '_' ∨ c.isAlphanum = true) :
    isSpace c = false ∧ c ≠ ' ' ∧ c ≠ '*' ∧ c ≠ ',' := by
  have hne : ∀ e : Char, ¬(e = '_' ∨ e.isAlphanum = true) → c ≠ e := fun e he hc => he (hc ▸ h)
  exact ⟨isSpace_eq_false fun e he => hne e (by fin_cases he <;> decide), hne ' ' (by decide),
    hne '*' (by decide), hne ',' (by decide)⟩

theorem trim_type : trim (d.type ++ d.gap) = d.type :=
  trim_append (forall_mem_nil _) (fun c hc => d.blank c (by simp [hc])) d.type_ne d.trimmed

theorem trim_text : trim d.text = d.type ++ d.gap ++ d.name := by
  refine trim_append (fun c hc => d.blank c (by simp [hc])) (fun c hc => d.blank c (by simp [hc]))
    (by simp [d.type_ne]) ?_
  rintro c (hc | hc)
  · rw [append_assoc, List.head?_append_of_ne_nil _ d.type_ne] at hc
    exact d.trimmed c (.inl hc)
  · by_cases hname : d.name = []
    · rw [hname, d.unnamed hname, append_nil, append_nil] at hc
      exact d.trimmed c (.inr hc)
    · rw [List.getLast?_append_of_ne_nil _ hname] at hc
      exact (isspace_ident (d.ident c (mem_of_getLast? hc))).1

/-- **A declarator is read** if and only if it is handled. -/
theorem parseToken_eq_iff : parseToken d.text = some (d.type, d.name) ↔ d.Handled := by
  have hspace : ' ' ∉ d.name := fun h => (isspace_ident (d.ident _ h)).2.1 rfl
  rw [parseToken, d.trim_text, Handled]
  by_cases hmem : ' ' ∈ d.type ++ d.gap
  swap
  · rw [if_neg (by simpa [hspace] using hmem)]
    exact iff_of_false nofun fun h => hmem h.1
  rw [if_pos (mem_append_left _ hmem)]
  have hdrop : (d.type ++ d.gap ++ d.name).dropWhile (· ≠ ' ') =
      (d.type ++ d.gap).dropWhile (· ≠ ' ') ++ d.name := by
    rw [dropWhile_append, if_neg]
    simpa using hmem
  have hname : d.name.dropWhile (fun c => c = ' ' || c = '*') = d.name := by
    cases h : d.name with
    | nil => rfl
    | cons c s =>
      have hc := isspace_ident (d.ident c (by simp [h]))
      exact dropWhile_cons_of_neg (by simp [hc])
  rw [hdrop]
  by_cases hstar : ∀ c ∈ (d.type ++ d.gap).dropWhile (· ≠ ' '), c = ' ' ∨ c = '*'
  · rw [dropWhile_append_of_pos (by simpa using hstar), hname]
    have hlen : (d.type ++ d.gap ++ d.name).length - d.name.length = (d.type ++ d.gap).length := by
      rw [length_append]
      omega
    simp only [hlen, take_left, d.trim_type, hmem, iff_true_intro hstar]
    simp
  · -- the name is longer
    refine iff_of_false (fun h => ?_) fun h => hstar h.2.1
    generalize (d.type ++ d.gap).dropWhile (· ≠ ' ') = r at h hstar
    have hne : r.dropWhile (fun c => c = ' ' || c = '*') ≠ [] := by
      simpa using hstar
    have hrest : (r ++ d.name).dropWhile (fun c => c = ' ' || c = '*') =
        r.dropWhile (fun c => c = ' ' || c = '*') ++ d.name := by
      rw [List.dropWhile_append, if_neg (by rwa [List.isEmpty_iff])]
    rw [hrest] at h
    simp only [Option.ite_none_right_eq_some, Option.some.injEq, Prod.mk.injEq] at h
    exact hne (append_left_eq_self.mp h.2.2)

end Declarator

/-! ### All declarators -/

theorem tokens_declarators (ds : List Declarator) :
    tokens ',' (declarators ds) = ds.map Declarator.text := by
  have htext : ∀ d : Declarator, tokens ',' d.text = [d.text] := by
    intro d
    refine tokens_eq_singleton (by simp [Declarator.text, d.type_ne]) ?_
    have hblank : ∀ t : Text, (∀ c ∈ t, isSpace c = true) → ',' ∉ t := fun t ht hc =>
      absurd (ht _ hc) (by decide)
    have hname : ',' ∉ d.name := fun h => (Declarator.isspace_ident (d.ident _ h)).2.2.2 rfl
    have hall := hblank _ d.blank
    simp only [mem_append, not_or] at hall
    simp [Declarator.text, hall, hname, d.comma]
  induction ds with
  | nil => rfl
  | cons d ds ih =>
    cases ds with
    | nil => exact htext d
    | cons e ds => rw [declarators, tokens_append, htext, ih]; rfl

theorem parseLoop_eq (s : Text) {k : ℕ} (hk : (tokens ',' s).length ≤ k)
    (params : List (Text × Text)) :
    parseLoop k (strtok ',' s) params = ((tokens ',' s).mapM parseToken).map (params ++ ·) := by
  induction k generalizing s params with
  | zero =>
    rw [length_eq_zero_iff.mp (Nat.le_zero.mp hk)]
    simp [parseLoop]
  | succ k ih =>
    rcases strtok_eq ',' s with ⟨hs, htokens⟩ | ⟨token, rest, hs, htokens, -⟩
    · simp [hs, htokens, parseLoop]
    · rw [htokens] at hk
      rw [hs, htokens, parseLoop, mapM_cons]
      cases parseToken token with
      | none => rfl
      | some p =>
        rw [Option.bind_some, ih _ (Nat.le_of_succ_le_succ hk)]
        cases (tokens ',' rest).mapM parseToken <;> simp

theorem mapM_parseToken_iff (ds : List Declarator) :
    (ds.map Declarator.text).mapM parseToken = some (ds.map fun d => (d.type, d.name)) ↔
      ∀ d ∈ ds, d.Handled := by
  induction ds with
  | nil => simp
  | cons d ds ih =>
    rw [forall_mem_cons, ← d.parseToken_eq_iff, ← ih, map_cons, mapM_cons]
    cases parseToken d.text <;> cases (ds.map Declarator.text).mapM parseToken <;> simp

/-- **The parameters are read** if and only if every declarator is handled. -/
theorem parseParameters_iff {ds : List Declarator} (hlen : (declarators ds).length < 256)
    (hcount : ds.length ≤ 10) : parseParameters "void".toList = some [] ∧
      (declarators ds ≠ "void".toList →
        (parseParameters (declarators ds) = some (ds.map fun d => (d.type, d.name)) ↔
          ∀ d ∈ ds, d.Handled)) := by
  refine ⟨rfl, fun hvoid => ?_⟩
  rw [parseParameters, if_neg (Nat.not_le.mpr hlen), if_neg hvoid,
    parseLoop_eq _ (by rwa [tokens_declarators, length_map]), tokens_declarators,
    ← mapM_parseToken_iff]
  simp

/-- The parameter `char *fmt`. -/
def pointer : Declarator where
  lead := []
  type := "char *".toList
  gap := []
  name := "fmt".toList
  trail := []
  blank := by simp
  type_ne := by simp
  trimmed := by rintro c (h | h) <;> cases h <;> rfl
  comma := by decide
  ident := by
    intro c hc
    have hc : c = 'f' ∨ c = 'm' ∨ c = 't' := by simpa using hc
    rcases hc with rfl | rfl | rfl <;> exact Or.inr rfl
  unnamed := by decide

/-- The parameter `int n`, behind a space. -/
def number : Declarator where
  lead := [' ']
  type := "int".toList
  gap := [' ']
  name := ['n']
  trail := []
  blank := by simp [isSpace]
  type_ne := by simp
  trimmed := by rintro c (h | h) <;> cases h <;> rfl
  comma := by decide
  ident := by simp
  unnamed := by simp

theorem parseParameters_pointer : parseParameters "char *fmt, int n".toList =
    some [("char *".toList, "fmt".toList), ("int".toList, "n".toList)] :=
  ((@parseParameters_iff [pointer, number] (by decide) (by decide)).2 (by decide)).mpr
    (by simp [Declarator.Handled, pointer, number])

/-- The parameter `const char *fmt`. -/
def constPointer : Declarator :=
  { pointer with
    type := "const char *".toList
    type_ne := by simp
    trimmed := by rintro c (h | h) <;> cases h <;> rfl
    comma := by decide }

/-- The second word of the type is put into the name. -/
theorem parseParameters_constPointer :
    parseParameters (declarators [constPointer]) ≠
      some [(constPointer.type, constPointer.name)] := by
  decide

end AthenX.Debug
