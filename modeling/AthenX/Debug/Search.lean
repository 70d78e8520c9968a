import AthenX.Debug.Extremes

/-!
# The search in the symbol map

`find_function` of `kernel/debug/debug.c` with its loop: `strtok` cuts off one line after the other,
each line is scanned for five fields, and the fields are kept if the address is the closest one so
far.

As in `AthenX.Debug.Lookup`, the fields are within the sizes of the buffers, and `malloc` returns a
block.
-/

namespace AthenX.Debug

open Scan List

/-- `strtok` with one delimiter: the token, and what is left behind it. -/
def strtok (delimiter : Char) (nextToken : Text) : Option (Text × Text) :=
  let current := nextToken.dropWhile (· = delimiter)
  if current = [] then none
  else some (current.takeWhile (· ≠ delimiter), (current.dropWhile (· ≠ delimiter)).tail)

/-- The loop of `find_function`, from a value of `line_ptr` on. -/
def scanLines (R : Readers) (address : ℕ) :
    ℕ → Option (Text × Text) → ℕ → Option Record → Option (Option Record)
  | _, none, _, result => some result
  | 0, some _, _, _ => none
  | k + 1, some (line, nextToken), closestAddress, result =>
      match lineRecord R line with
      | some r =>
          if r.address ≤ address ∧ closestAddress < r.address then
            scanLines R address k (strtok '\n' nextToken) r.address (some r)
          else scanLines R address k (strtok '\n' nextToken) closestAddress result
      | none => scanLines R address k (strtok '\n' nextToken) closestAddress result

/-- `find_function`, for a loop of at most `fuel` turns. -/
def findFunctionByLines (R : Readers) (fuel : ℕ) (buffer : Text) (address : ℕ) :
    Option (Option Record) :=
  if 0x01000000 < address then some none
  else scanLines R address fuel (strtok '\n' (buffer.takeWhile (· ≠ '\x00'))) 0 none

section

variable {R : Readers} {c : Char} {s line rest : Text} {address best fuel : ℕ}
  {result : Option Record}

/-- A call of `strtok` returns the first of the tokens, and goes on behind it. -/
theorem strtok_eq (c : Char) (s : Text) : (strtok c s = none ∧ tokens c s = []) ∨
    ∃ line rest, strtok c s = some (line, rest) ∧ tokens c s = line :: tokens c rest ∧
      rest.length < s.length := by
  have hcut := cut_tokensAt c s
  generalize tokensAt c s = ts at hcut
  cases hcut with
  | none hs =>
    refine .inl ⟨?_, Words.words_eq_nil_iff.mpr hs⟩
    simpa [strtok] using hs
  | @word _ g line t _ hg hline hne ht _ =>
    have hcurrent : (g ++ (line ++ t)).dropWhile (· = c) = line ++ t := by
      rw [dropWhile_append_of_pos (by simpa using hg)]
      obtain ⟨d, line, rfl⟩ := exists_cons_of_ne_nil hne
      simpa using hline d
    have hstop : t.takeWhile (· ≠ c) = [] ∧ t.dropWhile (· ≠ c) = t := by
      cases t <;> simp_all
    have hall : ∀ d ∈ line, decide (d ≠ c) = true := by simpa using hline
    have hpos := length_pos_iff.mpr hne
    refine .inr ⟨line, t.tail, ?_, ?_, by simp; omega⟩
    · simp only [strtok, hcurrent]
      rw [if_neg (append_ne_nil_of_left_ne_nil hne t), takeWhile_append_of_pos hall,
        dropWhile_append_of_pos hall, hstop.1, hstop.2, append_nil]
    · unfold tokens
      rw [Words.words_append_of_sep hg, Words.words_append_word hline hne ht]

/-- **The loop over the lines is the search through the records.** -/
theorem scanLines_eq (hfuel : s.length < fuel) :
    scanLines R address fuel (strtok '\n' s) best result =
      some (closest address ((tokens '\n' s).filterMap (lineRecord R)) best result) := by
  induction fuel generalizing s best result with
  | zero => exact absurd hfuel (Nat.not_lt_zero _)
  | succ k ih =>
    rcases strtok_eq '\n' s with ⟨hs, htokens⟩ | ⟨line, rest, hs, htokens, hlt⟩
    · rw [hs, htokens]
      rfl
    · have hrest : rest.length < k := by omega
      rw [hs, htokens, scanLines]
      cases hline : lineRecord R line with
      | none => rw [filterMap_cons_none hline, ih hrest]
      | some r =>
        rw [filterMap_cons_some hline, closest]
        simp only [ih hrest]
        split <;> rfl

theorem isSome_closest_iff {rs : List Record} : (closest address rs best result).isSome ↔
    result.isSome ∨ ∃ r ∈ rs, r.address ≤ address ∧ best < r.address := by
  induction rs generalizing best result with
  | nil => simp [closest]
  | cons r rs ih =>
    rw [closest]
    split
    · next hr =>
      rw [ih]
      exact iff_of_true (.inl rfl) (.inr ⟨r, mem_cons_self, hr⟩)
    · next hr =>
      simp [ih, exists_eq_or_imp, hr]

end

/-- **What `find_function` returns**: the first one of the lines with five fields whose address is
the greatest up to the given one. -/
theorem findFunctionByLines_spec (R : Readers) (buffer : Text) (address : ℕ) :
    ∃ result, (∀ fuel, buffer.length < fuel →
        findFunctionByLines R fuel buffer address = some result) ∧
      (result = none ↔ 0x01000000 < address ∨ ∀ line ∈ mapLines buffer, ∀ r,
        lineRecord R line = some r → ¬(0 < r.address ∧ r.address ≤ address)) ∧
      ∀ r, result = some r → ∃ pre line post, mapLines buffer = pre ++ line :: post ∧
        lineRecord R line = some r ∧ 0 < r.address ∧ r.address ≤ address ∧
        (∀ l ∈ pre, ∀ q, lineRecord R l = some q → q.address ≤ address → q.address < r.address) ∧
        ∀ l ∈ post, ∀ q, lineRecord R l = some q → q.address ≤ address → q.address ≤ r.address := by
  refine ⟨findFunction R buffer address, fun fuel hfuel => ?_, ?_, fun r hr => ?_⟩
  · rw [findFunctionByLines, findFunction]
    split
    · rfl
    · have hle := (List.takeWhile_prefix (fun d => decide (d ≠ '\x00')) (l := buffer)).length_le
      rw [scanLines_eq (by omega)]
      rfl
  · rw [findFunction]
    split
    · next hlarge => exact iff_of_true rfl (.inl hlarge)
    · next hlarge =>
      rw [← Option.not_isSome_iff_eq_none, isSome_closest_iff, or_iff_right hlarge]
      simp only [readMap, mem_filterMap]
      constructor
      · rintro hnone line hline r hr ⟨hpos, hle⟩
        exact hnone (.inr ⟨r, ⟨line, hline, hr⟩, hle, hpos⟩)
      · rintro hall (hr | ⟨r, ⟨line, hline, hr⟩, hle, hpos⟩)
        · cases hr
        · exact hall line hline r hr ⟨hpos, hle⟩
  · have ha : address ≤ 0x01000000 := by
      by_contra hlarge
      rw [findFunction, if_pos (by omega)] at hr
      cases hr
    obtain ⟨pre, post, hmap, hpos, hle, hpre, hpost⟩ := (findFunction_eq_some_iff ha).mp hr
    obtain ⟨l1, l2, hlines, rfl, hcons⟩ := filterMap_eq_append_iff.mp hmap
    obtain ⟨m1, line, m2, rfl, hnone, hline, rfl⟩ := filterMap_eq_cons_iff.mp hcons
    refine ⟨l1 ++ m1, line, m2, ?_, hline, hpos, hle, fun l hl q hq => ?_, fun l hl q hq => ?_⟩
    · rw [mapLines, hlines, append_assoc]
    · rcases mem_append.mp hl with hl | hl
      · exact hpre q (mem_filterMap.mpr ⟨l, hl, hq⟩)
      · rw [hnone l hl] at hq
        cases hq
    · exact hpost q (mem_filterMap.mpr ⟨l, hl, hq⟩)

end AthenX.Debug
