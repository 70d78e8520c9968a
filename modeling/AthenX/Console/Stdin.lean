import AthenX.Lib.Table

/-!
# Reading from the keyboard

The keyboard interrupt puts characters into `io_stream` with `push_io` of `drivers/io/stream.c`.
`getchar` takes them out, and so do `fgetc` and `fread` of `drivers/VFS/file.c`, which call it until
it returns something positive.

The buffer is a stack: what is typed before it is read comes out in the opposite order. `fread`
stores the result of `getchar() <= 0` in place of the character, and reader and interrupt share
`io_stream_pos` without a lock. The interrupt is one step, and the reader is interrupted anywhere.
-/

namespace AthenX.Console

open Table List Option

/-! ### The stream -/

/-- `IO_STREAM_SIZE`. -/
def ioStreamSize : ℕ := 1024 * 2

/-- `EOF`. -/
def eof : ℤ := -1

/-- The variables of `stream.c`. A `char` is signed. -/
structure IoStream where
  /-- `io_stream`, or null. -/
  buffer : Option (ℕ → Int8)
  /-- `io_stream_pos`. -/
  pos : ℕ
  /-- `disabled_io_stream`. -/
  disabled : Bool

/-- `init_io_system`, where `kmalloc` has returned `block`. -/
def initIoSystem (block : Option (ℕ → Int8)) : IoStream := ⟨block, 0, false⟩

/-- `push_io`. With a full buffer it writes behind the end, without one through null. -/
def pushIo (s : IoStream) (c : Int8) : Option (IoStream × ℤ) :=
  match s.buffer with
  | some a => some ({ s with buffer := some (Function.update a s.pos c), pos := s.pos + 1 },
    c.toInt)
  | none => if ioStreamSize ≤ s.pos then none else some (s, eof)

/-! ### The reader -/

/-- Where `getchar` is. -/
inductive Phase where
  /-- In front of the tests. -/
  | test
  /-- In front of the read of `io_stream_pos`. -/
  | load
  /-- The position has been read, and is to be written. -/
  | store (pos : ℕ)
  /-- The character is to be read. -/
  | fetch (pos : ℕ)
  deriving DecidableEq, Repr

/-- Who has called `getchar`. -/
inductive Caller where
  | getchar
  | fgetc
  /-- `fread`, with that many elements to go. -/
  | fread (left : ℕ)
  deriving DecidableEq, Repr

/-- The stream, the reader, the characters it has got and those that were typed. -/
structure State where
  stream : IoStream
  reader : Option (Caller × Phase)
  delivered : List Int8
  typed : List Int8

/-- What the caller does with the value of `getchar`: `getch_` takes positive values only, and in
`fread` the variable holds the value of the comparison. -/
def State.result (s : State) (r : ℤ) : Caller → State
  | .getchar =>
      { s with
        reader := none
        delivered := if r = eof then s.delivered else s.delivered ++ [Int8.ofInt r] }
  | .fgetc =>
      if r ≤ 0 then { s with reader := some (.fgetc, .test) }
      else { s with reader := none, delivered := s.delivered ++ [Int8.ofInt r] }
  | .fread left =>
      if r ≤ 0 then { s with reader := some (.fread left, .test) }
      else
        { s with
          reader := if left ≤ 1 then none else some (.fread (left - 1), .test)
          delivered := s.delivered ++ [0] }

/-- One step of `getchar`. -/
def State.advance (s : State) (k : Caller) : Phase → State
  | .test =>
      if s.stream.disabled then s
      else if s.stream.pos = 0 then s.result eof k
      else if s.stream.buffer.isNone then s.result eof k
      else { s with reader := some (k, .load) }
  | .load => { s with reader := some (k, .store s.stream.pos) }
  | .store pos =>
      { s with stream := { s.stream with pos := pos - 1 }, reader := some (k, .fetch (pos - 1)) }
  | .fetch pos => s.result (s.stream.buffer.elim 0 fun a => (a pos).toInt) k

/-! ### Runs -/

/-- What may happen. -/
inductive Event where
  /-- A keyboard interrupt. -/
  | key (c : Int8)
  /-- A call of `getchar`, of `fgetc`, or of `fread` for a number of elements. -/
  | call (k : Caller)
  /-- A step of the reader. -/
  | step
  deriving DecidableEq, Repr

/-- An event, where it is possible: a nonzero character with room for it, and one reader. -/
def State.exec (s : State) : Event → Option State
  | .key c =>
      if c ≠ 0 ∧ s.stream.pos < ioStreamSize then
        (pushIo s.stream c).map fun (stream, _) =>
          { s with stream := stream, typed := s.typed ++ [c] }
      else none
  | .call k =>
      if s.reader.isSome then none
      else some { s with reader := if k = .fread 0 then none else some (k, .test) }
  | .step => s.reader.map fun (k, phase) => s.advance k phase

/-- A sequence of events. -/
def State.run : State → List Event → Option State
  | s, [] => some s
  | s, e :: es => (s.exec e).bind fun s' => s'.run es

/-- The state after `init_io_system`. -/
def start (block : Option (ℕ → Int8)) : State := ⟨initIoSystem block, none, [], []⟩

/-! ### The property and the condition -/

/-- The characters in the buffer. -/
def State.pending (s : State) : List Int8 := s.stream.buffer.elim [] fun a => entries a s.stream.pos

/-- The character that the reader has taken out of the buffer and not read yet. -/
def State.inHand (s : State) : List Int8 :=
  match s.reader with
  | some (_, .fetch pos) => s.stream.buffer.elim [] fun a => [a pos]
  | _ => []

/-- What the reader has got, then what is still to come, is what was typed. -/
def Intact (s : State) : Prop := s.delivered ++ s.inHand ++ s.pending = s.typed

/-- Has the reader read the position, but not the character? -/
def Phase.inside : Phase → Bool
  | .store _ => true
  | .fetch _ => true
  | _ => false

/-- The steps that keep the order: no character below one or inside `--io_stream_pos`, reads with
one character in the buffer, no `fread` of an element. -/
def Gentle (s : State) : Event → Prop
  | .key c => 0 < c ∧ ∀ x ∈ s.reader, x.2.inside = false
  | .call k => k = .getchar ∨ k = .fgetc ∨ k = .fread 0
  | .step => ∀ x ∈ s.reader, x.2 = .load → s.stream.pos ≤ 1

/-- All steps of a run are gentle. -/
def AllGentle : State → List Event → Prop
  | _, [] => True
  | s, e :: es => Gentle s e ∧ ∀ s' ∈ s.exec e, AllGentle s' es

instance (s : State) : (e : Event) → Decidable (Gentle s e)
  | .key c => inferInstanceAs (Decidable (0 < c ∧ ∀ x ∈ s.reader, x.2.inside = false))
  | .call k => inferInstanceAs (Decidable (k = .getchar ∨ k = .fgetc ∨ k = .fread 0))
  | .step => inferInstanceAs (Decidable (∀ x ∈ s.reader, x.2 = .load → s.stream.pos ≤ 1))

instance decidableAllGentle : (s : State) → (es : List Event) → Decidable (AllGentle s es)
  | _, [] => isTrue trivial
  | s, e :: es =>
      have : ∀ s', Decidable (AllGentle s' es) := fun s' => decidableAllGentle s' es
      inferInstanceAs (Decidable (Gentle s e ∧ ∀ s' ∈ s.exec e, AllGentle s' es))

/-! ### The invariant -/

/-- What is known of the position at a phase of a gentle run. -/
def Phase.Fits (pos : ℕ) : Phase → Prop
  | .test => True
  | .load => 0 < pos
  | .store p => p = 1 ∧ pos = 1
  | .fetch p => p = 0 ∧ pos = 0

/-- The invariant of the gentle runs. -/
structure Orderly (s : State) : Prop where
  intact : Intact s
  buffer : s.stream.buffer.isSome = true
  positive : ∀ c ∈ s.typed, 0 < c
  plain : ∀ x ∈ s.reader, x.1 = .getchar ∨ x.1 = .fgetc
  phase : ∀ x ∈ s.reader, x.2.Fits s.stream.pos

theorem orderly_start (a : ℕ → Int8) : Orderly (start (some a)) where
  intact := rfl
  buffer := rfl
  positive := fun _ hc => absurd hc not_mem_nil
  plain := fun x hx => absurd hx (not_mem_none x)
  phase := fun x hx => absurd hx (not_mem_none x)

section

variable {s s' : State} {k : Caller}

theorem intact_iff_of_outside (h : ∀ x ∈ s.reader, x.2.inside = false) :
    Intact s ↔ s.delivered ++ s.pending = s.typed := by
  have hnil : s.inHand = [] := by
    unfold State.inHand
    split
    · next k pos hreader => exact absurd (h _ hreader) (by simp [Phase.inside])
    · rfl
  rw [Intact, hnil, append_nil]

section

variable (h : Orderly s)

include h

theorem Orderly.key {c : Int8} (hg : Gentle s (.key c))
    (hres : s.exec (.key c) = some s') : Orderly s' := by
  obtain ⟨hc, hout⟩ := hg
  obtain ⟨a, ha⟩ := isSome_iff_exists.mp h.buffer
  simp only [State.exec, pushIo, ha, map_some, ite_none_right_eq_some, Option.some.injEq] at hres
  obtain ⟨-, rfl⟩ := hres
  have hintact := (intact_iff_of_outside hout).mp h.intact
  simp only [State.pending, ha, elim_some] at hintact
  refine ⟨?_, rfl, ?_, h.plain, ?_⟩
  · refine (intact_iff_of_outside ?_).mpr ?_
    · exact hout
    · simp only [State.pending, elim_some]
      rw [entries_put, ← append_assoc, hintact]
  · intro d hd
    rcases mem_append.mp hd with hd | hd
    · exact h.positive d hd
    · rw [mem_singleton.mp hd]
      exact hc
  · -- the reader is in front of the read of the position
    intro x hx
    have hfits := h.phase x hx
    have hoff := hout x hx
    revert hfits hoff
    cases x.2 with
    | test => exact fun _ _ => trivial
    | load => exact fun _ _ => Nat.succ_pos _
    | store p | fetch p => simp [Phase.inside]

theorem Orderly.returned {delivered : List Int8} (hintact : delivered ++ s.pending = s.typed) :
    Orderly { s with reader := none, delivered := delivered } := by
  refine ⟨(intact_iff_of_outside ?_).mpr hintact, h.buffer, h.positive, ?_, ?_⟩ <;>
    exact fun x hx => absurd hx (not_mem_none x)

theorem Orderly.call (hg : Gentle s (.call k))
    (hres : s.exec (.call k) = some s') : Orderly s' := by
  simp only [State.exec, ite_none_left_eq_some, Option.some.injEq, Bool.not_eq_true,
    isSome_eq_false_iff, isNone_iff_eq_none] at hres
  obtain ⟨hnone, rfl⟩ := hres
  have hintact := (intact_iff_of_outside (by simp [hnone])).mp h.intact
  by_cases hzero : k = .fread 0
  · rw [if_pos hzero]
    exact h.returned hintact
  · rw [if_neg hzero]
    have hk : k = .getchar ∨ k = .fgetc := by
      rcases hg with hk | hk | hk
      · exact .inl hk
      · exact .inr hk
      · exact absurd hk hzero
    refine ⟨(intact_iff_of_outside ?_).mpr hintact, h.buffer, h.positive, ?_, ?_⟩
    · rintro x ⟨⟩
      rfl
    · rintro x ⟨⟩
      exact hk
    · rintro x ⟨⟩
      trivial

theorem Orderly.result_eof (hreader : s.reader = some (k, .test)) : Orderly (s.result eof k) := by
  have hout : ∀ x ∈ s.reader, x.2.inside = false := by
    rw [hreader]
    rintro x ⟨⟩
    rfl
  have hintact := (intact_iff_of_outside hout).mp h.intact
  rcases h.plain _ hreader with rfl | rfl
  · exact h.returned hintact
  · -- `getch_` calls `getchar` again
    refine ⟨(intact_iff_of_outside ?_).mpr hintact, h.buffer, h.positive, ?_, ?_⟩
    · rintro x ⟨⟩
      rfl
    · rintro x ⟨⟩
      exact .inr rfl
    · rintro x ⟨⟩
      trivial

theorem Orderly.result_fetch {p : ℕ} (hreader : s.reader = some (k, .fetch p))
    {a : ℕ → Int8} (ha : s.stream.buffer = some a) : Orderly (s.result (a p).toInt k) := by
  obtain ⟨rfl, hpos⟩ := h.phase _ hreader
  have hintact := h.intact
  unfold Intact State.inHand State.pending at hintact
  simp only [hreader, ha, hpos] at hintact
  have htyped : s.delivered ++ [a 0] = s.typed := by simpa [entries] using hintact
  have hc : 0 < (a 0).toInt := by
    have hmem : a 0 ∈ s.typed := htyped ▸ mem_append_right _ mem_cons_self
    simpa using Int8.lt_iff_toInt_lt.mp (h.positive _ hmem)
  have hresult : s.result (a 0).toInt k =
      { s with reader := none, delivered := s.delivered ++ [a 0] } := by
    rcases h.plain _ hreader with rfl | rfl
    · simp [State.result, eof, show (a 0).toInt ≠ -1 by omega]
    · simp [State.result, show ¬(a 0).toInt ≤ 0 by omega]
  rw [hresult]
  exact h.returned (by simpa [State.pending, ha, hpos, entries] using htyped)

/-- The reader moves on to another phase, with the stream as it was. -/
theorem Orderly.moved {phase phase' : Phase} (hreader : s.reader = some (k, phase))
    (hin : phase.inside = false) (hhand : ∀ p, phase' ≠ .fetch p) (hfits : phase'.Fits s.stream.pos)
    : Orderly { s with reader := some (k, phase') } := by
  have hintact : s.delivered ++ s.pending = s.typed := by
    refine (intact_iff_of_outside ?_).mp h.intact
    rw [hreader]
    rintro x ⟨⟩
    exact hin
  refine ⟨?_, h.buffer, h.positive, ?_, ?_⟩
  · show s.delivered ++ State.inHand { s with reader := some (k, phase') } ++ s.pending = s.typed
    unfold State.inHand
    cases phase' with
    | fetch p => exact absurd rfl (hhand p)
    | _ => simpa using hintact
  · rintro x ⟨⟩
    exact h.plain (k, phase) hreader
  · rintro x ⟨⟩
    exact hfits

theorem Orderly.step (hg : Gentle s .step) (hres : s.exec .step = some s') : Orderly s' := by
  obtain ⟨⟨k, phase⟩, hreader, rfl⟩ := map_eq_some_iff.mp hres
  obtain ⟨a, ha⟩ := isSome_iff_exists.mp h.buffer
  have hfits := h.phase _ hreader
  cases phase with
  | test =>
    simp only [State.advance, ha, isNone_some, Bool.false_eq_true, if_false]
    split
    · exact h
    · split
      · exact h.result_eof hreader
      · next hpos =>
        exact h.moved hreader rfl (fun p => Phase.noConfusion) (Nat.pos_of_ne_zero hpos)
  | load =>
    have hone : s.stream.pos = 1 := Nat.le_antisymm (hg _ hreader rfl) hfits
    exact h.moved hreader rfl (fun p => Phase.noConfusion) ⟨hone, hone⟩
  | store p =>
    obtain ⟨rfl, hpos⟩ := hfits
    have hintact := h.intact
    unfold Intact State.inHand State.pending at hintact
    simp only [hreader, ha, hpos] at hintact
    refine ⟨?_, h.buffer, h.positive, ?_, ?_⟩
    · unfold Intact State.inHand State.pending
      simp only [State.advance, ha]
      simpa [entries] using hintact
    · rintro x ⟨⟩
      exact h.plain (k, .store 1) hreader
    · rintro x ⟨⟩
      exact ⟨rfl, rfl⟩
  | fetch p =>
    simp only [State.advance, ha]
    exact h.result_fetch hreader ha

/-- **A gentle step keeps the invariant.** -/
theorem Orderly.exec {e : Event} (hg : Gentle s e) (hres : s.exec e = some s') : Orderly s' := by
  cases e with
  | key c => exact h.key hg hres
  | call k => exact h.call hg hres
  | step => exact h.step hg hres

theorem Orderly.run {es : List Event} (hg : AllGentle s es)
    (hres : s.run es = some s') : Orderly s' := by
  induction es generalizing s with
  | nil =>
    cases hres
    exact h
  | cons e es ih =>
    obtain ⟨s1, hexec, hrest⟩ := bind_eq_some_iff.mp hres
    exact ih (h.exec hg.1 hexec) (hg.2 s1 hexec) hrest

end

end

/-- **Reading in the order of typing.** In a run of gentle steps the reader gets the characters in
the order they were typed in, and the others are in the buffer. -/
theorem intact_of_gentle {a : ℕ → Int8} {es : List Event} {s : State}
    (hrun : (start (some a)).run es = some s) (hg : AllGentle (start (some a)) es) :
    Intact s ∧ s.delivered <+: s.typed := by
  have h := ((orderly_start a).run hg hrun).intact
  exact ⟨h, s.inHand ++ s.pending, by rw [← append_assoc]; exact h⟩

/-! ### The bounds of the buffer

Without interrupts: `getchar` is one step here, and `set_io_pos` is called as well. -/

/-- `getchar`, which does not return while the stream is disabled. -/
def getchar (s : IoStream) : Option (IoStream × ℤ) :=
  if s.disabled then none
  else if s.pos = 0 then some (s, eof)
  else
    match s.buffer with
    | some a => some ({ s with pos := s.pos - 1 }, (a (s.pos - 1)).toInt)
    | none => some (s, eof)

/-- `set_io_pos`, where `io_stream_size` is `IO_STREAM_SIZE`. -/
def setIoPos (s : IoStream) (pos : Int32) : Option (IoStream × ℤ) :=
  if s.disabled then none
  else if pos.toInt ≤ ioStreamSize ∧ 0 ≤ pos.toInt then
    some ({ s with pos := pos.toInt.toNat }, pos.toInt)
  else some (s, eof)

/-- The calls. -/
inductive StreamCall where
  | pushIo (c : Int32)
  | getchar
  | setIoPos (pos : Int32)
  deriving DecidableEq, Repr

/-- Run a call. -/
def StreamCall.exec (s : IoStream) : StreamCall → Option (IoStream × ℤ)
  | .pushIo c => Console.pushIo s c.toInt8
  | .getchar => Console.getchar s
  | .setIoPos pos => Console.setIoPos s pos

/-- What is asked of a call. A push that changes something has stored at `s.pos`. -/
structure InBounds (s : IoStream) (x : StreamCall) (s' : IoStream) (r : ℤ) : Prop where
  pos : s'.pos ≤ ioStreamSize
  store : ∀ c, x = .pushIo c → s' = s ∨ s.pos < ioStreamSize
  full : ∀ c, x = .pushIo c → s.pos = ioStreamSize → s' = s ∧ r = eof

/-- All calls return, and keep to the bounds. -/
def Keeps : IoStream → List StreamCall → Prop
  | _, [] => True
  | s, x :: xs => ∃ s' r, x.exec s = some (s', r) ∧ InBounds s x s' r ∧ Keeps s' xs

/-- Nothing is pushed to a full buffer, from `n` characters on. -/
def Room : ℕ → List StreamCall → Prop
  | _, [] => True
  | n, .pushIo _ :: xs => n < ioStreamSize ∧ Room (n + 1) xs
  | n, .getchar :: xs => Room (n - 1) xs
  | n, .setIoPos pos :: xs =>
      Room (if pos.toInt ≤ ioStreamSize ∧ 0 ≤ pos.toInt then pos.toInt.toNat else n) xs

section

variable {s s' : IoStream} {a : ℕ → Int8} {x : StreamCall} {xs : List StreamCall} {r : ℤ} {n : ℕ}

theorem keeps_cons_iff (h : x.exec s = some (s', r)) :
    Keeps s (x :: xs) ↔ InBounds s x s' r ∧ Keeps s' xs := by
  constructor
  · rintro ⟨s1, r1, h1, hin, hkeeps⟩
    cases h.symm.trans h1
    exact ⟨hin, hkeeps⟩
  · exact fun ⟨hin, hkeeps⟩ => ⟨s', r, h, hin, hkeeps⟩

theorem keeps_cons_iff_of_pos (h : x.exec s = some (s', r)) (hx : ∀ c, x ≠ .pushIo c)
    (hpos : s'.pos ≤ ioStreamSize) : Keeps s (x :: xs) ↔ Keeps s' xs := by
  rw [keeps_cons_iff h]
  exact and_iff_right ⟨hpos, fun c hc => absurd hc (hx c), fun c hc => absurd hc (hx c)⟩

theorem inBounds_pushIo_iff {c : Int32} :
    InBounds ⟨some a, n, false⟩ (.pushIo c)
      ⟨some (Function.update a n c.toInt8), n + 1, false⟩ r ↔ n < ioStreamSize := by
  constructor
  · intro h
    exact h.pos
  · intro h
    exact ⟨h, fun _ _ => .inr h, fun _ _ hfull => absurd hfull (Nat.ne_of_lt h)⟩

theorem keeps_iff_room (hn : n ≤ ioStreamSize) : Keeps ⟨some a, n, false⟩ xs ↔ Room n xs := by
  induction xs generalizing a n with
  | nil => exact Iff.rfl
  | cons x xs ih =>
    cases x with
    | pushIo c =>
      rw [keeps_cons_iff (show StreamCall.exec _ (.pushIo c) = some _ from rfl),
        inBounds_pushIo_iff]
      exact and_congr_right ih
    | getchar =>
      by_cases hz : n = 0
      · subst hz
        rw [keeps_cons_iff_of_pos (show StreamCall.exec _ .getchar = some _ from rfl)
          (fun c => nofun) hn]
        exact ih hn
      · have hexec : StreamCall.exec ⟨some a, n, false⟩ .getchar =
            some (⟨some a, n - 1, false⟩, (a (n - 1)).toInt) := by
          simp [StreamCall.exec, getchar, hz]
        have hn' : n - 1 ≤ ioStreamSize := by omega
        rw [keeps_cons_iff_of_pos hexec (fun c => nofun) hn']
        exact ih hn'
    | setIoPos pos =>
      rw [Room]
      split
      · next hpos =>
        have hexec : StreamCall.exec ⟨some a, n, false⟩ (.setIoPos pos) =
            some (⟨some a, pos.toInt.toNat, false⟩, pos.toInt) := by
          simp [StreamCall.exec, setIoPos, hpos]
        have hn' : pos.toInt.toNat ≤ ioStreamSize := Int.toNat_le.mpr hpos.1
        rw [keeps_cons_iff_of_pos hexec (fun c => nofun) hn']
        exact ih hn'
      · next hpos =>
        have hexec : StreamCall.exec ⟨some a, n, false⟩ (.setIoPos pos) =
            some (⟨some a, n, false⟩, eof) := by
          simp [StreamCall.exec, setIoPos, if_neg hpos]
        rw [keeps_cons_iff_of_pos hexec (fun c => nofun) hn]
        exact ih hn

end

/-- **When the calls keep to the bounds**: if and only if nothing is pushed to a full buffer. -/
theorem keeps_iff (a : ℕ → Int8) (xs : List StreamCall) :
    Keeps (initIoSystem (some a)) xs ↔ Room 0 xs :=
  keeps_iff_room (Nat.zero_le _)

/-- One character after the position was set to the end. -/
theorem not_keeps_full : ¬Keeps (initIoSystem (some fun _ => 0)) [.setIoPos 2048, .pushIo 97] := by
  intro h
  obtain ⟨hlt, -⟩ : Room 0 [.setIoPos 2048, .pushIo 97] := (keeps_iff_room (Nat.zero_le _)).mp h
  exact absurd hlt (by decide)

/-! ### Samples -/

/-- A call, and the steps of one `getchar`. -/
def reads (k : Caller) : List Event := [.call k, .step, .step, .step, .step]

/-- Two characters, each read before the next one is typed. -/
def slowTyping : List Event := .key 104 :: reads .getchar ++ .key 105 :: reads .fgetc

/-- Two characters that are typed before they are read. -/
def fastTyping : List Event := [.key 104, .key 105] ++ reads .getchar

theorem intact_slowTyping : ∃ s, (start (some fun _ => 0)).run slowTyping = some s ∧
    s.delivered = [104, 105] ∧ Intact s := by
  have hsome : ((start (some fun _ => 0)).run slowTyping).map (·.delivered) = some [104, 105] := by
    decide
  obtain ⟨s, hrun, hdelivered⟩ := map_eq_some_iff.mp hsome
  exact ⟨s, hrun, hdelivered, (intact_of_gentle hrun (by decide)).1⟩

/-- The second character is delivered first. -/
theorem not_intact_fastTyping : ∃ s, (start (some fun _ => 0)).run fastTyping = some s ∧
    s.typed = [104, 105] ∧ s.delivered = [105] ∧ ¬Intact s := by
  have hsome : ((start (some fun _ => 0)).run fastTyping).map
      (fun s => (s.typed, s.delivered, s.inHand, s.pending)) =
        some ([104, 105], [105], [], [104]) := by
    decide
  obtain ⟨s, hrun, hs⟩ := map_eq_some_iff.mp hsome
  simp only [Prod.mk.injEq] at hs
  obtain ⟨htyped, hdelivered, hhand, hpending⟩ := hs
  refine ⟨s, hrun, htyped, hdelivered, ?_⟩
  rw [Intact, htyped, hdelivered, hhand, hpending]
  decide

end AthenX.Console
