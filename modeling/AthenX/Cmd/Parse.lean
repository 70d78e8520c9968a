import AthenX.KHeap.Contents
import AthenX.Lib.Scan

/-!
# Parsing a command line

`parse_command` of `kernel/cmd/command.c` cuts the line at the blanks with `strtok`, before anything
looks at the quotes, and stores a pointer for each token into an array of 64. A token that starts
with a quote is taken up to its next quote; if there is none, the pointer is into the line.

A line is its characters without the zero, and an argument the pointer with the string there.
-/

namespace AthenX.Cmd

open KHeap Scan List Option

/-! ### The source -/

/-- What `parse_command` stores for a token. -/
inductive Arg where
  /-- The token itself, which starts with a quote. -/
  | token
  /-- A copy of the characters between two quotes, in a block of `malloc`. -/
  | quoted (text : Text)
  /-- A copy of the token, in a block of `kmalloc`. -/
  | bare (text : Text)
  deriving DecidableEq, Repr

/-- The case of a token, which is not empty. -/
def argOf (t : Text) : Arg :=
  if t.head? = some '"' then
    if '"' ∈ t.tail then .quoted (t.tail.takeWhile (· ≠ '"')) else .token
  else .bare t

/-- The text of the argument for a token. -/
def argText (t : Text) : Text :=
  match argOf t with
  | .token => t
  | .quoted u => u
  | .bare u => u

/-- The number of pointers in the array. -/
def maxArgs : ℕ := 64

/-- The ways in which `parse_command` ends. -/
inductive Outcome where
  /-- Null, with the value that is stored in `argc`, if there is one. -/
  | null (argc : Option Int32)
  /-- A store behind the array. -/
  | overrun
  /-- The array, with its arguments, as many as `argc` says. -/
  | argv (ptr : UInt32) (args : List (UInt32 × Text))

/-- The pointer for a token at an offset of the line, and whether there was memory for it. -/
def storeArg (fuel : ℕ) (line : UInt32) (s : Allocator) (x : ℕ × Text) :
    Option (Allocator × UInt32 × Bool) :=
  match argOf x.2 with
  | .token => some (s, line + UInt32.ofNat x.1, true)
  | .quoted u =>
      (mallocInt fuel s (UInt32.ofNat (u.length + 2))).map fun (s, p) => (s, p, p ≠ 0)
  | .bare u =>
      (kmalloc fuel s.heap (UInt32.ofNat (u.length + 1))).map fun (h, p) =>
        ({ s with heap := h }, p, p ≠ 0)

/-- The loop over the tokens, with the arguments so far. -/
def parseLoop (fuel : ℕ) (argv line : UInt32) :
    List (ℕ × Text) → Allocator → List (UInt32 × Text) → Option (Allocator × Outcome)
  | [], s, args => some (s, .argv argv args)
  | x :: tokens, s, args =>
      if maxArgs ≤ args.length then some (s, .overrun)
      else (storeArg fuel line s x).bind fun (s, p, success) =>
        if success then parseLoop fuel argv line tokens s (args ++ [(p, argText x.2)])
        else some (s, .null (some (-1)))

/-- `parse_command`, for the line `text` at `line`. -/
def parseCommand (fuel : ℕ) (s : Allocator) (line : UInt32) (text : Text) :
    Option (Allocator × Outcome) :=
  (mallocInt fuel s 256).bind fun (s, argv) =>
    if argv = 0 then some (s, .null none)
    else parseLoop fuel argv line (tokensAt ' ' text) s []

/-- The allocator has a block for the copy of each token, one after the other. -/
def Supplied : Allocator → List (ℕ × Text) → Prop
  | _, [] => True
  | s, (_, t) :: ts =>
      match argOf t with
      | .token => Supplied s ts
      | .quoted u => ∃ s' p, Returns (mallocInt · s (UInt32.ofNat (u.length + 2)))
          (s', p) ∧ p ≠ 0 ∧ Supplied s' ts
      | .bare u => ∃ h p, Returns (kmalloc · s.heap (UInt32.ofNat (u.length + 1)))
          (h, p) ∧ p ≠ 0 ∧ Supplied { s with heap := h } ts

/-! ### Writing arguments -/

/-- An argument, in quotes if it contains a blank. -/
def written (a : Text) : Text := if ' ' ∈ a then '"' :: (a ++ ['"']) else a

/-- Arguments with single blanks between them. -/
def commandLine : List Text → Text
  | [] => []
  | [a] => written a
  | a :: b :: as => written a ++ ' ' :: commandLine (b :: as)

/-- The arguments that were found. -/
def Outcome.texts : Outcome → Option (List Text)
  | .argv _ args => some (args.map Prod.snd)
  | _ => none

section

variable {fuel : ℕ} {argv line : UInt32} {s s' : Allocator} {text a : Text} {r : Outcome}

/-! ### Enough memory -/

theorem supplied_cons (line : UInt32) {x : ℕ × Text} {ts : List (ℕ × Text)} :
    Supplied s (x :: ts) ↔
      ∃ s' p, Returns (storeArg · line s x) (s', p, true) ∧ Supplied s' ts := by
  obtain ⟨offset, t⟩ := x
  rw [Supplied]
  unfold storeArg
  cases argOf t with
  | token =>
    refine ⟨fun h => ⟨s, _, ⟨0, rfl⟩, h⟩, ?_⟩
    rintro ⟨s', p, ⟨fuel, hstore⟩, h⟩
    cases hstore
    exact h
  | quoted u =>
    constructor
    · rintro ⟨s', p, ⟨fuel, halloc⟩, hp, h⟩
      exact ⟨s', p, ⟨fuel, map_eq_some_iff.mpr ⟨_, halloc, by simp [hp]⟩⟩, h⟩
    · rintro ⟨s', p, ⟨fuel, hstore⟩, h⟩
      obtain ⟨⟨s1, q⟩, halloc, heq⟩ := map_eq_some_iff.mp hstore
      obtain ⟨rfl, rfl, hq⟩ : s1 = s' ∧ q = p ∧ q ≠ 0 := by simpa using heq
      exact ⟨s1, q, ⟨fuel, halloc⟩, hq, h⟩
  | bare u =>
    constructor
    · rintro ⟨h', p, ⟨fuel, halloc⟩, hp, h⟩
      exact ⟨_, p, ⟨fuel, map_eq_some_iff.mpr ⟨_, halloc, by simp [hp]⟩⟩, h⟩
    · rintro ⟨s', p, ⟨fuel, hstore⟩, h⟩
      obtain ⟨⟨h', q⟩, halloc, heq⟩ := map_eq_some_iff.mp hstore
      obtain ⟨rfl, rfl, hq⟩ : { s with heap := h' } = s' ∧ q = p ∧ q ≠ 0 := by simpa using heq
      exact ⟨h', q, ⟨fuel, halloc⟩, hq, h⟩

theorem storeArg_mono {fuel' : ℕ} {x : ℕ × Text} {y : Allocator × UInt32 × Bool}
    (hle : fuel ≤ fuel') (hres : storeArg fuel line s x = some y) :
    storeArg fuel' line s x = some y := by
  unfold storeArg at hres ⊢
  cases harg : argOf x.2 <;> simp only [harg] at hres ⊢
  · exact hres
  · obtain ⟨z, hz, rfl⟩ := map_eq_some_iff.mp hres
    rw [mallocInt_mono hz hle, map_some]
  · obtain ⟨z, hz, rfl⟩ := map_eq_some_iff.mp hres
    rw [kmalloc_mono hz hle, map_some]

theorem parseLoop_mono {fuel' : ℕ} {x : Allocator × Outcome} (hle : fuel ≤ fuel') :
    ∀ {ts : List (ℕ × Text)} {s : Allocator} {args : List (UInt32 × Text)},
      parseLoop fuel argv line ts s args = some x →
      parseLoop fuel' argv line ts s args = some x := by
  intro ts
  induction ts with
  | nil => exact fun hres => hres
  | cons y ts ih =>
    intro s args hres
    rw [parseLoop] at hres ⊢
    split at hres
    · next hfull => rwa [if_pos hfull]
    · next hfull =>
      obtain ⟨⟨s1, p, success⟩, hstore, hres⟩ := bind_eq_some_iff.mp hres
      rw [if_neg hfull, storeArg_mono hle hstore, bind_some]
      cases success with
      | true => exact ih hres
      | false => exact hres

/-- **With enough memory the loop comes to its end**, and not for want of memory. -/
theorem returns_parseLoop (argv line : UInt32) :
    ∀ {ts : List (ℕ × Text)} {s : Allocator} (args : List (UInt32 × Text)),
    Supplied s (ts.take (maxArgs - args.length)) →
    ∃ s' r, Returns (parseLoop · argv line ts s args) (s', r) ∧
      ∀ argc, r ≠ .null argc := by
  intro ts
  induction ts with
  | nil => exact fun {s} _ _ => ⟨s, _, ⟨0, rfl⟩, fun _ => nofun⟩
  | cons y ts ih =>
    intro s args hsup
    by_cases hfull : maxArgs ≤ args.length
    · exact ⟨s, .overrun, ⟨0, if_pos hfull⟩, fun _ => nofun⟩
    rw [show maxArgs - args.length = maxArgs - (args.length + 1) + 1 by omega, take_succ_cons,
      supplied_cons line] at hsup
    obtain ⟨s1, p, ⟨f1, hstore⟩, hsup⟩ := hsup
    obtain ⟨s', r, ⟨f2, hres⟩, hr⟩ := ih (args ++ [(p, argText y.2)])
      (by rwa [length_append, length_singleton])
    refine ⟨s', r, ⟨max f1 f2, ?_⟩, hr⟩
    simp only [parseLoop, if_neg hfull, storeArg_mono (Nat.le_max_left f1 f2) hstore, bind_some,
      if_true]
    exact parseLoop_mono (Nat.le_max_right f1 f2) hres

theorem supplied_of_parseLoop {p : UInt32} {args' : List (UInt32 × Text)} :
    ∀ {ts : List (ℕ × Text)} {s : Allocator} {args : List (UInt32 × Text)},
      parseLoop fuel argv line ts s args = some (s', .argv p args') → args.length ≤ maxArgs →
      Supplied s ts ∧ args.length + ts.length ≤ maxArgs := by
  intro ts
  induction ts with
  | nil => exact fun _ hlen => ⟨trivial, hlen⟩
  | cons y ts ih =>
    intro s args hres hlen
    rw [parseLoop] at hres
    split at hres
    · cases hres
    obtain ⟨⟨s1, q, success⟩, hstore, hres⟩ := bind_eq_some_iff.mp hres
    cases success with
    | false => cases hres
    | true =>
      obtain ⟨hsup, hle⟩ := ih hres (by rw [length_append, length_singleton]; omega)
      rw [length_append, length_singleton] at hle
      exact ⟨(supplied_cons line).mpr ⟨s1, q, ⟨fuel, hstore⟩, hsup⟩,
        by rw [length_cons]; omega⟩

theorem returns_parseCommand (line : UInt32) {s1 : Allocator} {p : UInt32}
    (hargv : Returns (mallocInt · s 256) (s1, p)) (hp : p ≠ 0)
    (hsup : Supplied s1 ((tokensAt ' ' text).take maxArgs)) :
    ∃ s' r, Returns (parseCommand · s line text) (s', r) ∧
      ∀ argc, r ≠ .null argc := by
  obtain ⟨f1, halloc⟩ := hargv
  obtain ⟨s', r, ⟨f2, hres⟩, hr⟩ := returns_parseLoop p line [] hsup
  refine ⟨s', r, ⟨max f1 f2, ?_⟩, hr⟩
  simp only [parseCommand, mallocInt_mono halloc (Nat.le_max_left f1 f2), bind_some, if_neg hp]
  exact parseLoop_mono (Nat.le_max_right f1 f2) hres

/-! ### The tokens -/

theorem texts_of_parseLoop : ∀ {ts : List (ℕ × Text)} {s : Allocator}
    {args : List (UInt32 × Text)}, parseLoop fuel argv line ts s args = some (s', r) →
    (∃ argc, r = .null argc) ∨ (r = .overrun ∧ maxArgs < args.length + ts.length) ∨
      r.texts = some (args.map Prod.snd ++ ts.map fun x => argText x.2) := by
  intro ts
  induction ts with
  | nil =>
    intro s args hres
    cases hres
    exact .inr (.inr (by simp [Outcome.texts]))
  | cons x ts ih =>
    intro s args hres
    rw [parseLoop] at hres
    split at hres
    · next hfull =>
      cases hres
      exact .inr (.inl ⟨rfl, by rw [length_cons]; omega⟩)
    obtain ⟨⟨s1, p, success⟩, -, hres⟩ := bind_eq_some_iff.mp hres
    cases success with
    | false =>
      cases hres
      exact .inl ⟨_, rfl⟩
    | true =>
      rcases ih hres with hnull | ⟨hover, hlt⟩ | htexts
      · exact .inl hnull
      · refine .inr (.inl ⟨hover, ?_⟩)
        rw [length_append, length_singleton] at hlt
        rw [length_cons]
        omega
      · refine .inr (.inr ?_)
        rw [htexts, map_append, map_singleton, append_assoc, singleton_append, map_cons]

/-- **The arguments are those of the tokens**, if there is memory for them. -/
theorem texts_of_parseCommand (hres : parseCommand fuel s line text = some (s', r))
    (hr : ∀ argc, r ≠ .null argc) :
    (r = .overrun ∧ maxArgs < (tokens ' ' text).length) ∨
      r.texts = some ((tokens ' ' text).map argText) := by
  obtain ⟨⟨s1, argv⟩, -, hres⟩ := bind_eq_some_iff.mp hres
  dsimp only at hres
  split at hres
  · cases hres
    exact absurd rfl (hr none)
  · rcases texts_of_parseLoop hres with ⟨argc, hnull⟩ | ⟨hover, hlt⟩ | htexts
    · exact absurd hnull (hr argc)
    · refine .inl ⟨hover, ?_⟩
      rwa [← map_snd_tokensAt, length_map, ← Nat.zero_add (tokensAt ' ' text).length]
    · refine .inr ?_
      rw [htexts, ← map_snd_tokensAt, List.map_map]
      rfl

/-! ### A list of arguments -/

theorem two_le_tokens_written (ha : ' ' ∈ a) : 2 ≤ (tokens ' ' (written a)).length := by
  obtain ⟨u, v, rfl⟩ := append_of_mem ha
  have hsplit : written (u ++ ' ' :: v) = ('"' :: u) ++ ' ' :: (v ++ ['"']) := by
    rw [written]
    simp
  have hfront : tokens ' ' ('"' :: u) ≠ [] := tokens_ne_nil ⟨'"', mem_cons_self, by decide⟩
  have hback : tokens ' ' (v ++ ['"']) ≠ [] := tokens_ne_nil ⟨'"', by simp, by decide⟩
  rw [hsplit, tokens_append, length_append]
  have := length_pos_iff.mpr hfront
  have := length_pos_iff.mpr hback
  omega

theorem tokens_written (ha : a ≠ []) (hblank : ' ' ∉ a) : tokens ' ' (written a) = [a] := by
  rw [written, if_neg hblank, tokens_eq_singleton ha hblank]

theorem tokens_commandLine_cons (a : Text) (as : List Text) :
    tokens ' ' (commandLine (a :: as)) = tokens ' ' (written a) ++ tokens ' ' (commandLine as) := by
  cases as with
  | nil => rw [commandLine, commandLine, show tokens ' ' [] = [] from rfl, append_nil]
  | cons b as => rw [commandLine, tokens_append]

theorem tokens_commandLine {as : List Text} (hne : ∀ a ∈ as, a ≠ []) (hblank : ∀ a ∈ as, ' ' ∉ a) :
    tokens ' ' (commandLine as) = as := by
  induction as with
  | nil => rfl
  | cons a as ih =>
    obtain ⟨ha, hne⟩ := forall_mem_cons.mp hne
    obtain ⟨hab, hblank⟩ := forall_mem_cons.mp hblank
    rw [tokens_commandLine_cons, tokens_written ha hab, ih hne hblank, singleton_append]

theorem length_tokens_commandLine {as : List Text} (hne : ∀ a ∈ as, a ≠ []) :
    as.length ≤ (tokens ' ' (commandLine as)).length ∧
      ((∃ a ∈ as, ' ' ∈ a) → as.length < (tokens ' ' (commandLine as)).length) := by
  induction as with
  | nil => exact ⟨Nat.le_refl 0, fun ⟨a, ha, _⟩ => nomatch ha⟩
  | cons a as ih =>
    obtain ⟨ha, hne⟩ := forall_mem_cons.mp hne
    obtain ⟨hle, hlt⟩ := ih hne
    rw [tokens_commandLine_cons, length_append, length_cons]
    by_cases hblank : ' ' ∈ a
    · have := two_le_tokens_written hblank
      exact ⟨by omega, fun _ => by omega⟩
    · rw [tokens_written ha hblank, length_singleton]
      refine ⟨by omega, fun ⟨b, hb, hbb⟩ => ?_⟩
      rcases mem_cons.mp hb with rfl | hb
      · exact absurd hbb hblank
      · have := hlt ⟨b, hb, hbb⟩
        omega

/-- **A list of arguments comes back if and only if there is no blank in it**, with enough memory
for the array and the copies of the first 64 tokens. -/
theorem texts_commandLine_iff (line : UInt32) (as : List Text) {s1 : Allocator} {p : UInt32}
    (hlen : as.length ≤ maxArgs) (hne : ∀ a ∈ as, a ≠ []) (hquote : ∀ a ∈ as, '"' ∉ a)
    (hargv : Returns (mallocInt · s 256) (s1, p)) (hp : p ≠ 0)
    (hsup : Supplied s1 ((tokensAt ' ' (commandLine as)).take maxArgs)) :
    ∃ s' r, Returns (parseCommand · s line (commandLine as)) (s', r) ∧
      (r.texts = some as ↔ ∀ a ∈ as, ' ' ∉ a) := by
  obtain ⟨s', r, hret, hr⟩ := returns_parseCommand line hargv hp hsup
  refine ⟨s', r, hret, ?_⟩
  obtain ⟨fuel, hres⟩ := hret
  have htexts := texts_of_parseCommand hres hr
  constructor
  · intro heq a ha hblank
    have hmore := (length_tokens_commandLine hne).2 ⟨a, ha, hblank⟩
    rcases htexts with ⟨rfl, -⟩ | htexts
    · cases heq
    · have hargs := some.inj (heq.symm.trans htexts)
      have := congrArg List.length hargs
      rw [length_map] at this
      omega
  · intro hblank
    rw [tokens_commandLine hne hblank] at htexts
    rcases htexts with ⟨-, hlt⟩ | htexts
    · omega
    · have hself : ∀ a ∈ as, argText a = a := fun a ha => by
        have hhead : ¬a.head? = some '"' := fun hhead => hquote a ha (mem_of_mem_head? hhead)
        rw [argText, argOf, if_neg hhead]
      rw [htexts, List.map_congr_left hself, List.map_id']

end

/-- Two arguments without blanks. -/
theorem texts_commandLine_twoArgs : ∃ s' r, Returns (parseCommand · emptyAllocator 0x8000
      (commandLine ["ls".toList, "dir".toList])) (s', r) ∧
    r.texts = some ["ls".toList, "dir".toList] := by
  have hargv : Returns (mallocInt · emptyAllocator 256)
      (runCalls emptyAllocator [.malloc 256], 0x1400) := ⟨4, rfl⟩
  have hsup : Supplied (runCalls emptyAllocator [.malloc 256])
      [(0, "ls".toList), (3, "dir".toList)] :=
    ⟨_, 0x1800, ⟨4, rfl⟩, by decide, _, 0x1C00, ⟨4, rfl⟩, by decide, trivial⟩
  obtain ⟨s', r, hret, hiff⟩ := texts_commandLine_iff 0x8000
    ["ls".toList, "dir".toList] (by decide) (by decide) (by decide) hargv (by decide) hsup
  exact ⟨s', r, hret, hiff.mpr (by decide)⟩

/-- One argument with a blank comes back as two, with a quote in each. -/
theorem texts_commandLine_blank : ∃ s' r, Returns (parseCommand · emptyAllocator 0x8000
      (commandLine ["my file".toList])) (s', r) ∧
    r.texts = some ["\"my".toList, "file\"".toList] := by
  have hview : (parseCommand 4 emptyAllocator 0x8000 (commandLine ["my file".toList])).map
      (fun x => x.2.texts) = some (some ["\"my".toList, "file\"".toList]) := by
    decide
  obtain ⟨⟨s', r⟩, hres, htexts⟩ := map_eq_some_iff.mp hview
  exact ⟨s', r, ⟨4, hres⟩, htexts⟩

end AthenX.Cmd
