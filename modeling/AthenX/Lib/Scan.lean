import AthenX.Lib.Words

/-!
# Scanning text

The part of `sscanf` that reads records of fields with a separator: `%x`, `%d`, `%[^c]` and ordinary
characters, into objects of 32 bits. Implementations differ in how they read numbers (`Readers`). In
the C standard a result that cannot be represented is undefined, and fails here. `strtok` with one
delimiter cuts a text into the nonempty pieces.
-/

namespace Scan

open List Option

/-- A text. -/
abbrev Text := List Char

/-! ### Characters -/

/-- `isspace`. -/
def isSpace (c : Char) : Bool :=
  c = ' ' || c = '\t' || c = '\n' || c = '\x0B' || c = '\x0C' || c = '\r'

/-- The value of a hexadecimal digit. -/
def hexDigit (c : Char) : Option ℕ :=
  if 48 ≤ c.toNat ∧ c.toNat ≤ 57 then some (c.toNat - 48)
  else if 97 ≤ c.toNat ∧ c.toNat ≤ 102 then some (c.toNat - 87)
  else if 65 ≤ c.toNat ∧ c.toNat ≤ 70 then some (c.toNat - 55)
  else none

/-- Is this a hexadecimal digit? -/
def isHex (c : Char) : Bool := (hexDigit c).isSome

/-- The number that a sequence of hexadecimal digits denotes. -/
def hexVal (s : Text) : ℕ := s.foldl (fun n c => 16 * n + (hexDigit c).getD 0) 0

/-! ### Conversions -/

/-- An optional sign: is it a minus, and what is behind it? -/
def sign : Text → Bool × Text
  | '-' :: s => (true, s)
  | '+' :: s => (false, s)
  | s => (false, s)

/-- An optional `0x` or `0X`. -/
def radix : Text → Text
  | '0' :: 'x' :: s => s
  | '0' :: 'X' :: s => s
  | s => s

/-- `%x`: the value, and what is behind it. A minus negates in the unsigned type. -/
def scanHex (s : Text) : Option (ℕ × Text) :=
  let (minus, s) := sign (s.dropWhile isSpace)
  let digits := (radix s).takeWhile isHex
  if digits = [] ∨ 2 ^ 32 ≤ hexVal digits then none
  else some (if minus then (2 ^ 32 - hexVal digits) % 2 ^ 32 else hexVal digits,
    (radix s).dropWhile isHex)

/-- A number with a sign. -/
def signed (minus : Bool) (n : ℕ) : ℤ := if minus then -n else n

/-- `%d`: the value, and what is behind it. -/
def scanDec (s : Text) : Option (ℤ × Text) :=
  let (minus, s) := sign (s.dropWhile isSpace)
  let digits := s.takeWhile Char.isDigit
  let n := signed minus (Nat.ofDigitChars 10 digits 0)
  if digits = [] ∨ n < -2 ^ 31 ∨ 2 ^ 31 ≤ n then none else some (n, s.dropWhile Char.isDigit)

/-- How the two kinds of numbers are read. -/
structure Readers where
  hex : Text → Option (ℕ × Text)
  dec : Text → Option (ℤ × Text)

/-- After the C standard. -/
def standard : Readers := ⟨scanHex, scanDec⟩

/-- The directives of a format. -/
inductive Directive where
  /-- `%x`. -/
  | hex
  /-- `%d`. -/
  | dec
  /-- A character that is not a blank. -/
  | lit (c : Char)
  /-- `%[^c]`. -/
  | except (c : Char)
  deriving DecidableEq, Repr

/-- The values that are read. -/
inductive Value where
  | nat (n : ℕ)
  | int (n : ℤ)
  | text (s : Text)
  deriving DecidableEq, Repr

/-- One directive: the value, if there is one, and what is behind it. -/
def scan (R : Readers) : Directive → Text → Option (Option Value × Text)
  | .hex, s => (R.hex s).map fun (n, s) => (some (.nat n), s)
  | .dec, s => (R.dec s).map fun (n, s) => (some (.int n), s)
  | .lit c, s => if s.head? = some c then some (none, s.tail) else none
  | .except c, s =>
      if s.takeWhile (· ≠ c) = [] then none
      else some (some (.text (s.takeWhile (· ≠ c))), s.dropWhile (· ≠ c))

/-- `sscanf`: the values up to the first directive that fails. -/
def sscanf (R : Readers) : List Directive → Text → List Value
  | [], _ => []
  | d :: ds, s =>
      match scan R d s with
      | none => []
      | some (v, s) => v.toList ++ sscanf R ds s

/-! ### Fields that are read -/

section

variable {s t r : Text} {c : Char} {ds : List Directive} {p : Char → Bool}

theorem isSpace_eq_false (h : ∀ e ∈ [' ', '\t', '\n', '\x0B', '\x0C', '\r'], c ≠ e) :
    isSpace c = false := by
  simpa [isSpace, and_assoc] using h

theorem takeWhile_append_cons (ht : ∀ d ∈ t, p d = true) (hc : p c = false) :
    (t ++ c :: r).takeWhile p = t := by
  rw [takeWhile_append_of_pos ht, takeWhile_cons_of_neg (by simp [hc]), append_nil]

theorem dropWhile_append_cons (ht : ∀ d ∈ t, p d = true) (hc : p c = false) :
    (t ++ c :: r).dropWhile p = c :: r := by
  rw [dropWhile_append_of_pos ht, dropWhile_cons_of_neg (by simp [hc])]

/-- A digit is not a blank, not a sign and not an `x`. -/
theorem of_isHex (hc : isHex c = true) :
    isSpace c = false ∧ c ≠ '-' ∧ c ≠ '+' ∧ c ≠ 'x' ∧ c ≠ 'X' := by
  have hne : ∀ e, isHex e = false → c ≠ e := by
    rintro e he rfl
    rw [hc] at he
    cases he
  exact ⟨isSpace_eq_false fun e he => hne e (by fin_cases he <;> rfl), hne _ rfl, hne _ rfl,
    hne _ rfl, hne _ rfl⟩

theorem isHex_of_isDigit (hc : c.isDigit = true) : isHex c = true := by
  have hle : 48 ≤ c.toNat ∧ c.toNat ≤ 57 := by
    simpa [Char.isDigit, UInt32.le_iff_toNat_le] using hc
  simp [isHex, hexDigit, hle]

/-- A text that starts with a digit has no blanks and no sign in front. -/
theorem sign_dropWhile (hs : ∃ d ∈ s.head?, isHex d = true) :
    sign (s.dropWhile isSpace) = (false, s) := by
  obtain ⟨d, hd, hhex⟩ := hs
  obtain ⟨l, rfl⟩ := List.head?_eq_some_iff.mp hd
  obtain ⟨hspace, hminus, hplus, -⟩ := of_isHex hhex
  rw [dropWhile_cons_of_neg (by simp [hspace])]
  unfold sign
  split
  · next heq => exact absurd (List.cons.inj heq).1 hminus
  · next heq => exact absurd (List.cons.inj heq).1 hplus
  · rfl

/-- Without an `x` at the second place there is no `0x`. -/
theorem radix_eq_self (hs : ∀ d ∈ s[1]?, d ≠ 'x' ∧ d ≠ 'X') : radix s = s := by
  unfold radix
  split
  · exact absurd rfl (hs 'x' rfl).1
  · exact absurd rfl (hs 'X' rfl).2
  · rfl

theorem sscanf_hex (ht : t ≠ []) (hhex : ∀ d ∈ t, isHex d = true) (hc : isHex c = false)
    (hx : c ≠ 'x' ∧ c ≠ 'X') (hlt : hexVal t < 2 ^ 32) :
    sscanf standard (.hex :: ds) (t ++ c :: r) =
      .nat (hexVal t) :: sscanf standard ds (c :: r) := by
  have hsign : sign ((t ++ c :: r).dropWhile isSpace) = (false, t ++ c :: r) := by
    obtain ⟨d, l, rfl⟩ := exists_cons_of_ne_nil ht
    exact sign_dropWhile ⟨d, rfl, hhex d mem_cons_self⟩
  have hradix : radix (t ++ c :: r) = t ++ c :: r := by
    refine radix_eq_self fun d hd => ?_
    -- the second character is a digit, or the one behind the digits
    match t, ht with
    | [a], _ =>
      obtain rfl : c = d := by simpa using hd
      exact hx
    | a :: b :: l, _ =>
      obtain rfl : b = d := by simpa using hd
      obtain ⟨-, -, -, hdx⟩ := of_isHex (hhex b (by simp))
      exact hdx
  have hok : ¬(t = [] ∨ 2 ^ 32 ≤ hexVal t) := by
    rintro (hnil | hge)
    · exact ht hnil
    · omega
  simp only [sscanf, scan, standard, scanHex, hsign, hradix, takeWhile_append_cons hhex hc,
    dropWhile_append_cons hhex hc, if_neg hok, Bool.false_eq_true, if_false, map_some,
    toList_some, singleton_append]

theorem sscanf_lit (R : Readers) : sscanf R (.lit c :: ds) (c :: r) = sscanf R ds r := by
  simp only [sscanf, scan, List.head?_cons, if_true, tail_cons, toList_none, nil_append]

theorem sscanf_except (R : Readers) (ht : t ≠ []) (hc : c ∉ t) :
    sscanf R (.except c :: ds) (t ++ c :: r) = .text t :: sscanf R ds (c :: r) := by
  have hall : ∀ d ∈ t, decide (d ≠ c) = true := fun d hd => by
    simp only [decide_eq_true_eq]
    rintro rfl
    exact hc hd
  have hend : decide (c ≠ c) = false := by simp
  simp only [sscanf, scan, takeWhile_append_cons hall hend, dropWhile_append_cons hall hend,
    if_neg ht, toList_some, singleton_append]

/-- A number that is printed is read. -/
theorem sscanf_dec {n : ℕ} (hn : n < 2 ^ 31) :
    sscanf standard [.dec] (Nat.toDigits 10 n) = [.int n] := by
  have hdigit : ∀ c ∈ Nat.toDigits 10 n, c.isDigit = true := fun c hc =>
    Nat.isDigit_of_mem_toDigits (by decide) (by decide) hc
  have hne : Nat.toDigits 10 n ≠ [] := Nat.toDigits_ne_nil
  have hsign : sign ((Nat.toDigits 10 n).dropWhile isSpace) = (false, Nat.toDigits 10 n) := by
    obtain ⟨d, l, hd⟩ := exists_cons_of_ne_nil hne
    refine sign_dropWhile ⟨d, by rw [hd]; rfl, isHex_of_isDigit (hdigit d ?_)⟩
    rw [hd]
    exact mem_cons_self
  have hvalue : Nat.ofDigitChars 10 (Nat.toDigits 10 n) 0 = n :=
    Nat.ofDigitChars_toDigits (by decide) (by decide)
  have hsigned : signed false n = n := rfl
  have hok : ¬(Nat.toDigits 10 n = [] ∨ (n : ℤ) < -2 ^ 31 ∨ (2 : ℤ) ^ 31 ≤ n) := by
    rintro (hnil | hlow | hhigh)
    · exact hne hnil
    · omega
    · omega
  simp only [sscanf, scan, standard, scanDec, hsign, takeWhile_eq_self_iff.mpr hdigit, hvalue,
    hsigned, if_neg hok, map_some, toList_some, append_nil]

end

/-! ### What was read -/

section

variable {s r t : Text} {v : Option Value} {d : Directive} {ds : List Directive}

theorem sign_suffix (s : Text) : (sign s).2 <:+ s := by
  unfold sign
  split
  · exact suffix_cons _ _
  · exact suffix_cons _ _
  · exact suffix_rfl

theorem radix_suffix (s : Text) : radix s <:+ s := by
  unfold radix
  split
  · exact (suffix_cons _ _).trans (suffix_cons _ _)
  · exact (suffix_cons _ _).trans (suffix_cons _ _)
  · exact suffix_rfl

/-- A directive leaves an end of the text. -/
theorem scan_suffix (h : scan standard d s = some (v, r)) : r <:+ s := by
  cases d with
  | hex =>
    obtain ⟨⟨n, r'⟩, hscan, he⟩ := map_eq_some_iff.mp h
    cases he
    simp only [standard, scanHex] at hscan
    split at hscan
    · cases hscan
    · cases hscan
      exact (dropWhile_suffix _).trans ((radix_suffix _).trans
        ((sign_suffix _).trans (dropWhile_suffix _)))
  | dec =>
    obtain ⟨⟨n, r'⟩, hscan, he⟩ := map_eq_some_iff.mp h
    cases he
    simp only [standard, scanDec] at hscan
    split at hscan
    · cases hscan
    · cases hscan
      exact (dropWhile_suffix _).trans ((sign_suffix _).trans (dropWhile_suffix _))
  | lit c =>
    simp only [scan] at h
    split at h
    · cases h
      exact tail_suffix _
    · cases h
  | except c =>
    simp only [scan] at h
    split at h
    · cases h
    · cases h
      exact dropWhile_suffix _

/-- What a value that was read from `s` is like. -/
def Sound (ds : List Directive) (s : Text) : Value → Prop
  | .nat n => n < 2 ^ 32
  | .int n => -2 ^ 31 ≤ n ∧ n < 2 ^ 31
  | .text t => t ≠ [] ∧ t <:+: s ∧ ∃ c, .except c ∈ ds ∧ c ∉ t

theorem Sound.mono {v : Value} (h : Sound ds r v) (hr : r <:+ s) : Sound (d :: ds) s v := by
  cases v with
  | nat n | int n => exact h
  | text t =>
    obtain ⟨hne, hin, c, hc, hnot⟩ := h
    exact ⟨hne, hin.trans hr.isInfix, c, mem_cons_of_mem d hc, hnot⟩

/-- The value of one directive. -/
theorem sound_of_scan {v : Value} (h : scan standard d s = some (some v, r)) :
    Sound (d :: ds) s v := by
  cases d with
  | hex =>
    obtain ⟨⟨n, r'⟩, hscan, he⟩ := map_eq_some_iff.mp h
    obtain ⟨hv, -⟩ := Prod.mk.inj he
    cases hv
    simp only [standard, scanHex] at hscan
    split at hscan
    · cases hscan
    · next hok =>
      cases hscan
      change (if _ then _ else _) < 2 ^ 32
      split
      · exact Nat.mod_lt _ (by decide)
      · omega
  | dec =>
    obtain ⟨⟨n, r'⟩, hscan, he⟩ := map_eq_some_iff.mp h
    obtain ⟨hv, -⟩ := Prod.mk.inj he
    cases hv
    simp only [standard, scanDec] at hscan
    split at hscan
    · cases hscan
    · next hok =>
      cases hscan
      simp only [not_or, Int.not_lt, Int.not_le] at hok
      exact hok.2
  | lit c =>
    simp only [scan] at h
    split at h
    · cases (Prod.mk.inj (some.inj h)).1
    · cases h
  | except c =>
    simp only [scan] at h
    split at h
    · cases h
    · next hne =>
      obtain ⟨hv, -⟩ := Prod.mk.inj (some.inj h)
      cases hv
      refine ⟨hne, (List.takeWhile_prefix _).isInfix, c, mem_cons_self, fun hc => ?_⟩
      simpa using mem_takeWhile_imp hc

/-- **Every value that is read is one of its type, and every text a part of the input.** -/
theorem sound_of_mem_sscanf {v : Value} : ∀ {ds : List Directive} {s : Text},
    v ∈ sscanf standard ds s → Sound ds s v := by
  intro ds
  induction ds with
  | nil => intro s hv; cases hv
  | cons d ds ih =>
    intro s hv
    rw [sscanf] at hv
    split at hv
    · cases hv
    · next v' r hscan =>
      rcases mem_append.mp hv with hfirst | hrest
      · obtain rfl := mem_toList.mp hfirst
        exact sound_of_scan hscan
      · exact (ih hrest).mono (scan_suffix hscan)

end

/-! ### A format in two parts -/

/-- The number of values that a directive reads. -/
def Directive.yields : Directive → ℕ
  | .lit _ => 0
  | _ => 1

/-- The number of values that a format reads. -/
def arity (ds : List Directive) : ℕ := (ds.map Directive.yields).sum

/-- The values and what is behind them, if no directive fails. -/
def scanAll (R : Readers) : List Directive → Text → Option (List Value × Text)
  | [], s => some ([], s)
  | d :: ds, s =>
      (scan R d s).bind fun (v, s) => (scanAll R ds s).map fun (vs, r) => (v.toList ++ vs, r)

section

variable {R : Readers} {s r : Text} {v : Option Value} {vs : List Value} {d : Directive}
  {ds : List Directive}

theorem length_of_scan (h : scan R d s = some (v, r)) : v.toList.length = d.yields := by
  cases d with
  | hex | dec =>
    obtain ⟨_, -, he⟩ := map_eq_some_iff.mp h
    cases he
    rfl
  | lit c =>
    simp only [scan] at h
    split at h
    · cases h
      rfl
    · cases h
  | except c =>
    simp only [scan] at h
    split at h
    · cases h
    · cases h
      rfl

theorem scanAll_cons_eq_some : scanAll R (d :: ds) s = some (vs, r) ↔
    ∃ v s' us, scan R d s = some (v, s') ∧ scanAll R ds s' = some (us, r) ∧
      v.toList ++ us = vs := by
  simp only [scanAll, bind_eq_some_iff, map_eq_some_iff, Prod.exists, Prod.mk.injEq]
  constructor
  · rintro ⟨v, s', hscan, us, r', hall, hvs, rfl⟩
    exact ⟨v, s', us, hscan, hall, hvs⟩
  · rintro ⟨v, s', us, hscan, hall, hvs⟩
    exact ⟨v, s', hscan, us, r, hall, hvs, rfl⟩

theorem length_of_scanAll : ∀ {ds : List Directive} {s : Text} {vs : List Value},
    scanAll R ds s = some (vs, r) → vs.length = arity ds := by
  intro ds
  induction ds with
  | nil =>
    intro s vs h
    cases h
    rfl
  | cons d ds ih =>
    intro s vs h
    obtain ⟨v, s', us, hscan, hall, rfl⟩ := scanAll_cons_eq_some.mp h
    rw [length_append, length_of_scan hscan, ih hall, arity, arity, map_cons, sum_cons]

theorem length_sscanf_le (R : Readers) : ∀ (ds : List Directive) (s : Text),
    (sscanf R ds s).length ≤ arity ds := by
  intro ds
  induction ds with
  | nil => exact fun s => Nat.le_refl 0
  | cons d ds ih =>
    intro s
    rw [sscanf]
    split
    · exact Nat.zero_le _
    · next v r hscan =>
      rw [length_append, length_of_scan hscan]
      exact Nat.add_le_add_left (ih r) _

/-- **The second part of a format** is read if no directive of the first one fails. -/
theorem sscanf_append (R : Readers) (ds' : List Directive) : ∀ (ds : List Directive) (s : Text),
    sscanf R (ds ++ ds') s = match scanAll R ds s with
      | some (vs, r) => vs ++ sscanf R ds' r
      | none => sscanf R ds s := by
  intro ds
  induction ds with
  | nil => exact fun s => rfl
  | cons d ds ih =>
    intro s
    rw [cons_append, sscanf, sscanf, scanAll]
    cases hscan : scan R d s with
    | none => rfl
    | some vr =>
      obtain ⟨v, r⟩ := vr
      simp only [bind_some, ih]
      cases scanAll R ds r with
      | none => rfl
      | some us => exact (append_assoc _ _ _).symm

/-- More values than the first part reads are from both parts. -/
theorem exists_scanAll {ds' : List Directive} (h : arity ds < (sscanf R (ds ++ ds') s).length) :
    ∃ vs r, scanAll R ds s = some (vs, r) ∧ vs.length = arity ds ∧
      sscanf R (ds ++ ds') s = vs ++ sscanf R ds' r := by
  have happ := sscanf_append R ds' ds s
  cases hall : scanAll R ds s with
  | none =>
    simp only [hall] at happ
    have hle := length_sscanf_le R ds s
    rw [happ] at h
    omega
  | some vr =>
    obtain ⟨vs, r⟩ := vr
    simp only [hall] at happ
    exact ⟨vs, r, rfl, length_of_scanAll hall, happ⟩

end

/-! ### Tokens -/

/-- `strtok` with the delimiter `c`, until there is no token left. -/
def tokens (c : Char) (s : Text) : List Text := Words.words (· == c) s

/-- The tokens with their offsets. -/
def tokensAt (c : Char) (s : Text) : List (ℕ × Text) := Words.wordsFrom (· == c) s.length 0 s

section

variable {c : Char} {s t : Text}

/-- A delimiter separates the tokens in front of it from those behind it. -/
theorem tokens_append (c : Char) (t s : Text) :
    tokens c (t ++ c :: s) = tokens c t ++ tokens c s :=
  Words.words_append_cons (beq_self_eq_true c)

theorem tokens_eq_singleton (ht : t ≠ []) (hc : c ∉ t) : tokens c t = [t] :=
  Words.words_eq_singleton (fun _ hx => beq_false_of_ne (ne_of_mem_of_not_mem hx hc)) ht

/-- A text with another character has a token. -/
theorem tokens_ne_nil (h : ∃ d ∈ s, d ≠ c) : tokens c s ≠ [] := by
  obtain ⟨d, hd, hne⟩ := h
  exact fun hnil => hne (eq_of_beq (Words.words_eq_nil_iff.mp hnil d hd))

/-- A token is a part of the text without the delimiter. -/
theorem of_mem_tokens (ht : t ∈ tokens c s) : c ∉ t ∧ t ⊆ s := by
  obtain ⟨hsub, hsep⟩ := Words.of_mem_words ht
  exact ⟨fun hc => by simpa using hsep c hc, hsub⟩

theorem cut_tokensAt (c : Char) (s : Text) : Words.Cut (· == c) 0 s (tokensAt c s) :=
  Words.cut_wordsFrom _ (Nat.le_refl s.length) 0

theorem map_snd_tokensAt (c : Char) (s : Text) : (tokensAt c s).map Prod.snd = tokens c s :=
  (cut_tokensAt c s).words_eq.symm

/-- A token starts inside of the text. -/
theorem lt_of_mem_tokensAt {x : ℕ × Text} (hx : x ∈ tokensAt c s) :
    x.1 + x.2.length ≤ s.length ∧ x.1 < s.length := by
  obtain ⟨hne, -, hle⟩ := (cut_tokensAt c s).bounds x hx
  have hpos := length_pos_iff.mpr hne
  omega

end

end Scan
