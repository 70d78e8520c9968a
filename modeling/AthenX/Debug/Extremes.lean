import AthenX.Debug.Lookup

/-!
# The first and the last function of the symbol map

`find_function_with_biggest_address` and `find_function_with_smallest_address` of
`kernel/debug/function.c`. They read the map with another format than `find_function`: the
parameters go up to a closing parenthesis, and there is no line number. In a line with all five
fields, they run on into the line number, or stop at a parenthesis inside. The fields fit the
buffers.
-/

namespace AthenX.Debug

open Scan List

/-! ### The source -/

/-- The format of `function.c`. -/
def formatFour : List Directive :=
  [.hex, .lit ':', .except ':', .lit ':', .except ':', .lit ':', .except ')']

/-- A line, if all four fields are read, with the line number cleared. -/
def lineRecordFour (R : Readers) (line : Text) : Option Record :=
  match sscanf R formatFour line with
  | [.nat address, .text path, .text name, .text params] => some ⟨address, path, name, params, 0⟩
  | _ => none

/-- The lines of the map, up to the end of the string. -/
def mapLines (buffer : Text) : List Text := tokens '\n' (buffer.takeWhile (· ≠ '\x00'))

/-- The search for a record whose address is better than all before it. -/
def search (better : ℕ → ℕ → Bool) : List Record → ℕ → Option Record → Option Record
  | [], _, result => result
  | r :: rs, best, result =>
      if better r.address best then search better rs r.address (some r)
      else search better rs best result

/-- `find_function_with_biggest_address`. -/
def findFunctionWithBiggestAddress (R : Readers) (buffer : Text) : Option Record :=
  search (fun a best => best < a) ((mapLines buffer).filterMap (lineRecordFour R)) 0 none

/-- `find_function_with_smallest_address`, from `UINT_MAX` on. -/
def findFunctionWithSmallestAddress (R : Readers) (buffer : Text) : Option Record :=
  search (fun a best => a < best) ((mapLines buffer).filterMap (lineRecordFour R)) (2 ^ 32 - 1) none

/-! ### The property and the condition -/

/-- `r'` has the texts of `r`. -/
def SameTexts (r r' : Record) : Prop := r'.path = r.path ∧ r'.name = r.name ∧ r'.params = r.params

/-- For the address of the record, `find_function` reports the same texts. -/
def Agrees (R : Readers) (buffer : Text) (r : Record) : Prop :=
  ∃ r', findFunction R buffer r.address = some r' ∧ SameTexts r r'

/-- The record is from this line: it is the first one with the record's address. -/
def OwnLine (R : Readers) (buffer : Text) (r : Record) (line : Text) : Prop :=
  ∃ pre post, mapLines buffer = pre ++ line :: post ∧ lineRecordFour R line = some r ∧
    ∀ l ∈ pre, ∀ q, lineRecordFour R l = some q → q.address ≠ r.address

/-- A line with five fields has the record's texts, and no other one up to its address is as good.
-/
def Substitute (R : Readers) (buffer : Text) (r : Record) : Prop :=
  ∃ pre r' post, readMap R buffer = pre ++ r' :: post ∧ SameTexts r r' ∧ 0 < r'.address ∧
    r'.address ≤ r.address ∧ (∀ q ∈ pre, q.address ≤ r.address → q.address < r'.address) ∧
    ∀ q ∈ post, q.address ≤ r.address → q.address ≤ r'.address

/-! ### The searches -/

section

variable {R : Readers} {better : ℕ → ℕ → Bool} {rs : List Record} {r : Record} {best : ℕ}

/-- **The loop returns the first one of the extreme records.** -/
theorem search_eq_some_iff (htrans : ∀ a b c, better a b → better b c → better a c)
    (hneg : ∀ a b c, ¬better a b → ¬better b c → ¬better a c) :
    ∀ {rs : List Record} {best : ℕ} {result : Option Record},
      search better rs best result = some r ↔
      (result = some r ∧ ∀ q ∈ rs, ¬better q.address best) ∨
      ∃ pre post, rs = pre ++ r :: post ∧ better r.address best ∧
        (∀ q ∈ pre, better r.address q.address) ∧ ∀ q ∈ post, ¬better q.address r.address := by
  intro rs
  induction rs with
  | nil => simp [search]
  | cons x rs ih =>
    intro best result
    rw [search]
    by_cases hx : better x.address best
    · rw [if_pos hx, ih]
      constructor
      · rintro (⟨hr, hall⟩ | ⟨pre, post, rfl, hr, hpre, hpost⟩)
        · cases hr
          exact .inr ⟨[], rs, rfl, hx, (fun q hq => nomatch hq), hall⟩
        · exact .inr ⟨x :: pre, post, rfl, htrans _ _ _ hr hx,
            forall_mem_cons.mpr ⟨hr, hpre⟩, hpost⟩
      · rintro (⟨-, hall⟩ | ⟨pre, post, heq, hr, hpre, hpost⟩)
        · exact absurd hx (hall x mem_cons_self)
        · cases pre with
          | nil =>
            cases heq
            exact .inl ⟨rfl, hpost⟩
          | cons y pre =>
            cases heq
            obtain ⟨hy, hpre⟩ := forall_mem_cons.mp hpre
            exact .inr ⟨pre, post, rfl, hy, hpre, hpost⟩
    · rw [if_neg hx, ih]
      constructor
      · rintro (⟨hr, hall⟩ | ⟨pre, post, rfl, hr, hpre, hpost⟩)
        · exact .inl ⟨hr, forall_mem_cons.mpr ⟨hx, hall⟩⟩
        · have hbetter : better r.address x.address := by
            by_contra hnot
            exact hneg _ _ _ hnot hx hr
          exact .inr ⟨x :: pre, post, rfl, hr, forall_mem_cons.mpr ⟨hbetter, hpre⟩, hpost⟩
      · rintro (⟨hr, hall⟩ | ⟨pre, post, heq, hr, hpre, hpost⟩)
        · exact .inl ⟨hr, (forall_mem_cons.mp hall).2⟩
        · cases pre with
          | nil =>
            cases heq
            exact absurd hr hx
          | cons y pre =>
            cases heq
            exact .inr ⟨pre, post, rfl, hr, (forall_mem_cons.mp hpre).2, hpost⟩

theorem closest_eq_search (address : ℕ) : ∀ (rs : List Record) (best : ℕ) (result : Option Record),
    closest address rs best result =
      search (fun a best => best < a) (rs.filter (·.address ≤ address)) best result := by
  intro rs
  induction rs with
  | nil => exact fun best result => rfl
  | cons x rs ih =>
    intro best result
    rw [closest]
    by_cases hle : x.address ≤ address
    · rw [filter_cons_of_pos (by simpa using hle), search]
      simp [hle, ih]
    · rw [filter_cons_of_neg (by simpa using hle), if_neg (fun h => hle h.1), ih]

theorem search_biggest_iff : search (fun a best => best < a) rs best none = some r ↔
    ∃ pre post, rs = pre ++ r :: post ∧ best < r.address ∧ (∀ q ∈ pre, q.address < r.address) ∧
      ∀ q ∈ post, q.address ≤ r.address := by
  rw [search_eq_some_iff (by simp; omega) (by simp; omega)]
  simp

theorem search_smallest_iff : search (fun a best => a < best) rs best none = some r ↔
    ∃ pre post, rs = pre ++ r :: post ∧ r.address < best ∧ (∀ q ∈ pre, r.address < q.address) ∧
      ∀ q ∈ post, r.address ≤ q.address := by
  rw [search_eq_some_iff (by simp; omega) (by simp; omega)]
  simp

/-- What `find_function` returns. -/
theorem findFunction_eq_some_iff {buffer : Text} {a : ℕ} (ha : a ≤ 0x01000000) :
    findFunction R buffer a = some r ↔
      ∃ pre post, readMap R buffer = pre ++ r :: post ∧ 0 < r.address ∧ r.address ≤ a ∧
        (∀ q ∈ pre, q.address ≤ a → q.address < r.address) ∧
        ∀ q ∈ post, q.address ≤ a → q.address ≤ r.address := by
  rw [findFunction, if_neg (by omega), closest_eq_search, search_biggest_iff]
  constructor
  · rintro ⟨pre, post, heq, hpos, hpre, hpost⟩
    obtain ⟨l1, l2, hmap, rfl, htail⟩ := filter_eq_append_iff.mp heq
    obtain ⟨m1, m2, rfl, hm, hr, rfl⟩ := filter_eq_cons_iff.mp htail
    refine ⟨l1 ++ m1, m2, by rw [hmap, append_assoc], hpos, by simpa using hr, ?_, ?_⟩
    · intro q hq hle
      rcases mem_append.mp hq with hq | hq
      · exact hpre q (mem_filter.mpr ⟨hq, by simpa using hle⟩)
      · exact absurd (by simpa using hle) (hm q hq)
    · exact fun q hq hle => hpost q (mem_filter.mpr ⟨hq, by simpa using hle⟩)
  · rintro ⟨pre, post, heq, hpos, hle, hpre, hpost⟩
    refine ⟨pre.filter (·.address ≤ a), post.filter (·.address ≤ a), ?_, hpos, ?_, ?_⟩
    · rw [heq, filter_append, filter_cons_of_pos (by simpa using hle)]
    · exact fun q hq => hpre q (mem_filter.mp hq).1 (by simpa using (mem_filter.mp hq).2)
    · exact fun q hq => hpost q (mem_filter.mp hq).1 (by simpa using (mem_filter.mp hq).2)

/-! ### One line -/

/-- The part that the two formats have in common. -/
def formatHead : List Directive :=
  [.hex, .lit ':', .except ':', .lit ':', .except ':', .lit ':']

variable {buffer line rest : Text} {r' : Record}

theorem exists_scanAll_formatHead (ds : List Directive) {a b c v : Value} {vs : List Value}
    (h : sscanf R (formatHead ++ ds) line = a :: b :: c :: v :: vs) :
    ∃ rest, scanAll R formatHead line = some ([a, b, c], rest) ∧ sscanf R ds rest = v :: vs := by
  have hlen : arity formatHead < (sscanf R (formatHead ++ ds) line).length := by
    rw [h]
    exact Nat.lt_add_left vs.length (Nat.lt_succ_self 3)
  obtain ⟨us, rest, hall, hus, happ⟩ := exists_scanAll hlen
  obtain ⟨rfl, hfields⟩ := append_inj
    (happ.symm.trans h : us ++ sscanf R ds rest = [a, b, c] ++ v :: vs) hus
  exact ⟨rest, hall, hfields⟩

theorem sscanf_single_except (R : Readers) (c : Char) (s : Text) : sscanf R [.except c] s =
    if s.takeWhile (· ≠ c) = [] then [] else [.text (s.takeWhile (· ≠ c))] := by
  by_cases h : s.takeWhile (· ≠ c) = []
  · simp only [sscanf, scan, if_pos h]
  · simp only [sscanf, scan, if_neg h]
    rfl

/-- With four fields, the parameters go up to a closing parenthesis. -/
theorem lineRecordFour_eq_some_iff : lineRecordFour R line = some r ↔
    ∃ rest, scanAll R formatHead line = some ([.nat r.address, .text r.path, .text r.name], rest) ∧
      r.params = rest.takeWhile (· ≠ ')') ∧ r.params ≠ [] ∧ r.lineNum = 0 := by
  constructor
  · intro h
    unfold lineRecordFour at h
    split at h
    · next address path name params heq =>
      cases h
      obtain ⟨rest, hall, hfield⟩ := exists_scanAll_formatHead [.except ')'] heq
      rw [sscanf_single_except] at hfield
      split at hfield
      · cases hfield
      · next hne =>
        obtain rfl : _ = params := Value.text.inj (List.cons.inj hfield).1
        exact ⟨rest, hall, rfl, hne, rfl⟩
    · cases h
  · rintro ⟨rest, hall, hparams, hne, hline⟩
    have hscan : sscanf R formatFour line =
        [.nat r.address, .text r.path, .text r.name, .text r.params] := by
      rw [show formatFour = formatHead ++ [.except ')'] from rfl, sscanf_append, hall]
      simp only [sscanf_single_except, ← hparams, if_neg hne]
      rfl
    rw [lineRecordFour, hscan, ← hline]

theorem exists_of_lineRecord (h : lineRecord R line = some r) : ∃ rest tail,
    scanAll R formatHead line = some ([.nat r.address, .text r.path, .text r.name], rest) ∧
      rest = r.params ++ ':' :: tail ∧ r.params ≠ [] := by
  unfold lineRecord at h
  split at h
  · next address path name params lineNum heq =>
    cases h
    obtain ⟨rest, hall, hfields⟩ := exists_scanAll_formatHead [.except ':', .lit ':', .dec] heq
    simp only [sscanf, scan] at hfields
    by_cases hne : rest.takeWhile (· ≠ ':') = []
    · rw [if_pos hne] at hfields
      cases hfields
    · rw [if_neg hne] at hfields
      by_cases hcolon : (rest.dropWhile (· ≠ ':')).head? = some ':'
      · obtain ⟨tail, htail⟩ := List.head?_eq_some_iff.mp hcolon
        obtain rfl : _ = params := Value.text.inj (List.cons.inj hfields).1
        refine ⟨rest, tail, hall, ?_, hne⟩
        rw [← htail, takeWhile_append_dropWhile]
      · simp only [if_neg hcolon] at hfields
        cases hfields
  · cases h

/-- **The two formats read different parameters from a line.** -/
theorem params_ne (hfour : lineRecordFour R line = some r) (h : lineRecord R line = some r') :
    r'.address = r.address ∧ r'.params ≠ r.params := by
  obtain ⟨rest, hall, hparams, -, -⟩ := lineRecordFour_eq_some_iff.mp hfour
  obtain ⟨rest', tail, hall', hrest, -⟩ := exists_of_lineRecord h
  obtain ⟨hvs, rfl⟩ := Prod.mk.inj (Option.some.inj (hall'.symm.trans hall))
  refine ⟨Value.nat.inj (List.cons.inj hvs).1, fun heq => ?_⟩
  -- without a parenthesis, the colon behind the parameters is read as well
  have hno : ∀ c ∈ r'.params, decide (c ≠ ')') = true := by
    intro c hc
    rw [heq, hparams] at hc
    exact mem_takeWhile_imp (p := fun c => decide (c ≠ ')')) hc
  rw [hrest, takeWhile_append_of_pos hno, ← heq] at hparams
  exact absurd (congrArg List.length hparams) (by simp)

theorem closing_mem_params (hfour : lineRecordFour R line = none)
    (h : lineRecord R line = some r') : ')' ∈ r'.params := by
  obtain ⟨rest, tail, hall, rfl, hne⟩ := exists_of_lineRecord h
  obtain ⟨c, params, hc⟩ := exists_cons_of_ne_nil hne
  by_contra hnot
  rw [hc] at hnot hall
  have hcc : c ≠ ')' := fun h => hnot (h ▸ mem_cons_self)
  have hsome : lineRecordFour R line = some ⟨r'.address, r'.path, r'.name, _, 0⟩ :=
    lineRecordFour_eq_some_iff.mpr ⟨_, hall, rfl, by simp [hcc], rfl⟩
  rw [hfour] at hsome
  cases hsome

theorem closing_not_mem_params (hfour : lineRecordFour R line = some r) : ')' ∉ r.params := by
  obtain ⟨rest, -, hparams, -, -⟩ := lineRecordFour_eq_some_iff.mp hfour
  intro hc
  rw [hparams] at hc
  simpa using mem_takeWhile_imp hc

/-! ### The records -/

theorem readMap_eq (R : Readers) (buffer : Text) :
    readMap R buffer = (mapLines buffer).filterMap (lineRecord R) := rfl

theorem exists_ownLine {pre post : List Record}
    (heq : (mapLines buffer).filterMap (lineRecordFour R) = pre ++ r :: post)
    (hpre : ∀ q ∈ pre, q.address ≠ r.address) : ∃ line, OwnLine R buffer r line := by
  obtain ⟨l1, l2, hlines, rfl, htail⟩ := filterMap_eq_append_iff.mp heq
  obtain ⟨m1, line, m2, rfl, hm, hr, -⟩ := filterMap_eq_cons_iff.mp htail
  refine ⟨line, l1 ++ m1, m2, by rw [hlines, append_assoc], hr, fun l hl q hq => ?_⟩
  rcases mem_append.mp hl with hl | hl
  · exact hpre q (mem_filterMap.mpr ⟨l, hl, hq⟩)
  · rw [hm l hl] at hq
    cases hq

theorem not_agrees_of_ownLine (hown : OwnLine R buffer r line) (h : lineRecord R line = some r')
    (hle : r.address ≤ 0x01000000) : ¬Agrees R buffer r := by
  rintro ⟨q, hq, -, -, hparams⟩
  obtain ⟨pre, post, hlines, hfour, hfirst⟩ := hown
  obtain ⟨haddress, hne⟩ := params_ne hfour h
  obtain ⟨pre', post', hmap, -, hqle, hpre', hpost'⟩ := (findFunction_eq_some_iff hle).mp hq
  have hsplit : pre.filterMap (lineRecord R) ++ r' :: post.filterMap (lineRecord R) =
      pre' ++ q :: post' := by
    rw [← hmap, readMap_eq, hlines, filterMap_append, filterMap_cons_some h]
  rcases append_eq_append_iff.mp hsplit with ⟨as, rfl, htail⟩ | ⟨bs, hpre, htail⟩
  · cases as with
    | nil =>
      -- the record of its own line
      cases htail
      exact hne hparams
    | cons a as =>
      -- the line is in front of the one that was found
      obtain ⟨rfl, -⟩ := List.cons.inj htail
      have hlt := hpre' r' (by simp) haddress.le
      omega
  · cases bs with
    | nil =>
      cases htail
      exact hne hparams
    | cons b bs =>
      -- the line that was found is in front, with the same address
      cases htail
      obtain ⟨l, hl, hlq⟩ := mem_filterMap.mp
        (hpre ▸ (by simp : q ∈ pre' ++ q :: bs) : q ∈ pre.filterMap (lineRecord R))
      have hge := hpost' r' (by simp) haddress.le
      cases hfl : lineRecordFour R l with
      | none =>
        have hclosing := closing_mem_params hfl hlq
        rw [hparams] at hclosing
        exact closing_not_mem_params hfour hclosing
      | some p =>
        have hpq := (params_ne hfl hlq).1
        exact hfirst l hl p hfl (by omega)

/-- **The record of an extreme address agrees with `find_function` if and only if** its own line
does not have five fields, and another one takes its place. -/
theorem agrees_iff (hr : findFunctionWithBiggestAddress R buffer = some r ∨
      findFunctionWithSmallestAddress R buffer = some r) (hle : r.address ≤ 0x01000000) :
    Agrees R buffer r ↔
      (∃ line, OwnLine R buffer r line ∧ lineRecord R line = none) ∧ Substitute R buffer r := by
  constructor
  · intro hagrees
    obtain ⟨line, hown⟩ : ∃ line, OwnLine R buffer r line := by
      rcases hr with hr | hr
      · obtain ⟨pre, post, heq, -, hpre, -⟩ := search_biggest_iff.mp hr
        exact exists_ownLine heq fun q hq => Nat.ne_of_lt (hpre q hq)
      · obtain ⟨pre, post, heq, -, hpre, -⟩ := search_smallest_iff.mp hr
        exact exists_ownLine heq fun q hq => Nat.ne_of_gt (hpre q hq)
    refine ⟨⟨line, hown, ?_⟩, ?_⟩
    · by_contra hsome
      obtain ⟨r', h⟩ := Option.ne_none_iff_exists'.mp hsome
      exact not_agrees_of_ownLine hown h hle hagrees
    · obtain ⟨r', hfind, htexts⟩ := hagrees
      obtain ⟨pre, post, hmap, hspec⟩ := (findFunction_eq_some_iff hle).mp hfind
      exact ⟨pre, r', post, hmap, htexts, hspec⟩
  · rintro ⟨-, pre, r', post, hmap, htexts, hspec⟩
    exact ⟨r', (findFunction_eq_some_iff hle).mpr ⟨pre, post, hmap, hspec⟩, htexts⟩

end

/-! ### Two maps -/

/-- A record of a function `f`. -/
abbrev recordWith (params : String) (lineNum : ℤ) : Record :=
  ⟨16, "k.c".toList, "f".toList, params.toList, lineNum⟩

/-- A line without a number, and behind it the same function with one. -/
def withSubstitute : Text := "10:k.c:f:void\n10:k.c:f:void:1\n".toList

theorem agrees_withSubstitute :
    findFunctionWithBiggestAddress kernel withSubstitute = some (recordWith "void" 0) ∧
    Agrees kernel withSubstitute (recordWith "void" 0) := by
  have hbiggest : findFunctionWithBiggestAddress kernel withSubstitute =
      some (recordWith "void" 0) := by decide
  refine ⟨hbiggest, (agrees_iff (.inl hbiggest) (by decide)).mpr ⟨?_, ?_⟩⟩
  · exact ⟨"10:k.c:f:void".toList, ⟨[], ["10:k.c:f:void:1".toList], by decide, by decide,
      fun l hl => nomatch hl⟩, by decide⟩
  · refine ⟨[], recordWith "void" 1, [], by decide,
      ⟨rfl, rfl, rfl⟩, by decide, by decide, ?_, ?_⟩ <;> exact fun q hq => nomatch hq

/-- A line as `format_map_2.py` writes it. -/
def withNumber : Text := "10:k.c:f:void:1\n".toList

theorem not_agrees_withNumber :
    findFunctionWithBiggestAddress kernel withNumber = some (recordWith "void:1" 0) ∧
    findFunctionWithSmallestAddress kernel withNumber = some (recordWith "void:1" 0) ∧
    ¬Agrees kernel withNumber (recordWith "void:1" 0) := by
  refine ⟨by decide, by decide, ?_⟩
  rintro ⟨r', hfind, -, -, hparams⟩
  have hfound : findFunction kernel withNumber 16 = some (recordWith "void" 1) := by decide
  cases hfind.symm.trans hfound
  exact absurd hparams (by decide)

end AthenX.Debug
