import AthenX.Cmd.Parse
import AthenX.KHeap.Contents
import AthenX.Lib.CString

/-!
# Cutting a command line

`strtok` of `libk/string.c` and `parse_command` of `kernel/cmd/command.c`, on the line in memory.
`strtok` puts a zero over the delimiter behind a token, and goes on behind it in the next call.
`parse_command` copies each token into a new block. The line is in no free block of the heap.
-/

namespace AthenX.Cmd

open KHeap CString Words Scan List Option Function

/-! ### The source -/

/-- `' '`. -/
def blank : UInt8 := 32

/-- `'"'`. -/
def quote : UInt8 := 34

/-- What the two functions work on. -/
structure Shell where
  alloc : Allocator
  mem : Memory
  /-- `next_token`. -/
  nextToken : ℕ
  /-- The array `argv`. -/
  argv : ℕ → UInt32

/-- A loop of `strtok`: on to the first character that is a delimiter, or is none. -/
def advance (delimiters : List UInt8) (isDelimiter : Bool) : ℕ → Memory → ℕ → Option ℕ
  | 0, _, _ => none
  | k + 1, m, p =>
      if m p ≠ 0 ∧ delimiters.contains (m p) = isDelimiter then
        advance delimiters isDelimiter k m (p + 1)
      else some p

/-- `strtok`. -/
def Shell.strtok (fuel : ℕ) (s : Shell) (str : Option ℕ) (delimiters : List UInt8) :
    Option (Shell × Option ℕ) := do
  let current ← advance delimiters true fuel s.mem (str.getD s.nextToken)
  if s.mem current = 0 then some ({ s with nextToken := current }, none)
  else do
    let next ← advance delimiters false fuel s.mem current
    if s.mem next ≠ 0 then
      some ({ s with mem := Function.update s.mem next 0, nextToken := next + 1 }, some current)
    else some ({ s with nextToken := next }, some current)

/-- `strchr`. -/
def strchr (c : UInt8) : ℕ → Memory → ℕ → Option (Option ℕ)
  | 0, _, _ => none
  | k + 1, m, p =>
      if m p = 0 then some none else if m p = c then some (some p) else strchr c k m (p + 1)

/-- `argv[arg_count] = p`. -/
def Shell.setArg (s : Shell) (argCount : ℕ) (p : UInt32) : Shell :=
  { s with argv := Function.update s.argv argCount p }

/-- The body of the loop of `parse_command`, up to the call of `strtok`. -/
def Shell.storeArg (fuel : ℕ) (s : Shell) (argCount token : ℕ) : Option (Shell × Bool) :=
  if maxArgs ≤ argCount then none
  else if s.mem token = quote then do
    let closingQuote ← strchr quote fuel s.mem (token + 1)
    match closingQuote with
    | none => some (s.setArg argCount (UInt32.ofNat token), true)
    | some q => do
        let (a, p) ← mallocInt fuel s.alloc (UInt32.ofNat (q - token + 1))
        let s := { s with alloc := a }.setArg argCount p
        if p = 0 then some (s, false)
        else
          let chars := (List.range (q - token - 1)).map fun i => s.mem (token + 1 + i)
          some ({ s with mem := poke s.mem p.toNat (chars ++ [0]) }, true)
  else do
    let t ← text s.mem fuel token
    let (h, p) ← kmalloc fuel s.alloc.heap (UInt32.ofNat (t.length + 1))
    let s := { s with alloc := { s.alloc with heap := h } }.setArg argCount p
    if p = 0 then some (s, false)
    else do
      let m ← strcpy fuel s.mem p.toNat token
      some ({ s with mem := m }, true)

/-- The loop of `parse_command`: the number of arguments, if there is memory. -/
def Shell.parseLoop (fuel : ℕ) : ℕ → Shell → ℕ → Option ℕ → Option (Shell × Option ℕ)
  | _, s, argCount, none => some (s, some argCount)
  | 0, _, _, some _ => none
  | k + 1, s, argCount, some token => do
      let (s, success) ← s.storeArg fuel argCount token
      if success then do
        let (s, token) ← s.strtok fuel none [blank]
        s.parseLoop fuel k (argCount + 1) token
      else some (s, none)

/-- `parse_command`: the array or null, and what is assigned to `argc`. -/
def Shell.parseCommand (fuel : ℕ) (s : Shell) (cmdLine : ℕ) :
    Option (Shell × UInt32 × Option ℤ) := do
  let (a, argv) ← mallocInt fuel s.alloc 256
  let s := { s with alloc := a }
  if argv = 0 then some (s, 0, none)
  else do
    let (s, token) ← s.strtok fuel (some cmdLine) [blank]
    let (s, argCount) ← s.parseLoop fuel fuel 0 token
    match argCount with
    | none => some (s, 0, some (-1))
    | some n => some (s, argv, some n)

/-! ### The property -/

/-- Is the character a blank? -/
def isBlank (c : UInt8) : Bool := c == blank

/-- `kmalloc` returns a block for each word, one after the other. -/
inductive Serves (fuel : ℕ) : Heap → List (UInt32 × List UInt8) → Heap → Prop
  | nil {h : Heap} : Serves fuel h [] h
  | cons {h h₁ h' : Heap} {p : UInt32} {w : List UInt8} {zs : List (UInt32 × List UInt8)} :
      w.length + 1024 ≤ 2147483647 →
      kmalloc fuel h (UInt32.ofNat (w.length + 1)) = some (h₁, p) → p ≠ 0 →
      Serves fuel h₁ zs h' → Serves fuel h ((p, w) :: zs) h'

/-- The block for a word. -/
def blockOf (x : UInt32 × List UInt8) : Allocation := ⟨x.1, (UInt32.ofNat (x.2.length + 1)).toInt32⟩

/-- What `strtok` has returned, and the words left, all between `lo` and `hi`. -/
inductive Cursor (m : Memory) (nextToken lo hi : ℕ) : Option ℕ → List (List UInt8) → Prop
  | done : Cursor m nextToken lo hi none []
  | token {t : ℕ} {w rest : List UInt8} : w ≠ [] → Holds m t w → Holds m nextToken rest →
      lo ≤ t → t + w.length ≤ hi → lo ≤ nextToken → nextToken + rest.length ≤ hi →
      Cursor m nextToken lo hi (some t) (w :: words isBlank rest)

variable {h h' : Heap} {zs : List (UInt32 × List UInt8)}

section

variable {fuel lo hi p : ℕ} {m : Memory} {s : Shell} {u w : List UInt8}

/-! ### One token -/

section

variable {delimiters g v : List UInt8} {str : Option ℕ}

/-- The loops of `strtok` go on to the first character of the other kind. -/
theorem advance_append {b : Bool} (hu : Holds m p (u ++ v))
    (hall : ∀ c ∈ u, delimiters.contains c = b) (hstop : ∀ c ∈ v.head?, delimiters.contains c ≠ b)
    (hfuel : (u ++ v).length < fuel) :
    advance delimiters b fuel m p = some (p + u.length) := by
  induction u generalizing p fuel with
  | nil =>
    obtain ⟨k, rfl⟩ := Nat.exists_eq_succ_of_ne_zero (Nat.ne_zero_of_lt hfuel)
    refine if_neg fun hgo => ?_
    cases v with
    | nil => exact hgo.1 hu
    | cons d v => exact hstop d rfl (hu.1 ▸ hgo.2)
  | cons c u ih =>
    obtain ⟨k, rfl⟩ := Nat.exists_eq_succ_of_ne_zero (Nat.ne_zero_of_lt hfuel)
    obtain ⟨rfl, hne, hu⟩ := hu
    obtain ⟨hc, hall⟩ := forall_mem_cons.mp hall
    rw [advance, if_pos ⟨hne, hc⟩, ih hu hall (by simpa using hfuel), length_cons, Nat.add_assoc,
      Nat.add_comm 1]

/-- There is no token. -/
theorem strtok_none (hp : str.getD s.nextToken = p) (hu : Holds s.mem p g)
    (hg : ∀ c ∈ g, delimiters.contains c = true) (hfuel : g.length < fuel) :
    s.strtok fuel str delimiters = some ({ s with nextToken := p + g.length }, none) := by
  have hskip : advance delimiters true fuel s.mem p = some (p + g.length) :=
    advance_append (v := []) (by rwa [append_nil]) hg (by simp) (by rwa [append_nil])
  unfold Shell.strtok
  rw [hp, hskip]
  simp only [bind_eq_bind, bind_some, if_pos hu.terminator]

/-- **One token.** There is a zero behind it, and the next call goes on behind the zero, or at it
where the string ends. -/
theorem strtok_word (hp : str.getD s.nextToken = p) (hu : Holds s.mem p (g ++ (w ++ v)))
    (hg : ∀ c ∈ g, delimiters.contains c = true) (hw : ∀ c ∈ w, delimiters.contains c = false)
    (hne : w ≠ []) (hv : ∀ c ∈ v.head?, delimiters.contains c = true)
    (hfuel : (g ++ (w ++ v)).length < fuel) :
    s.strtok fuel str delimiters = some
      ({ s with
          mem := update s.mem (p + g.length + w.length) 0
          nextToken := p + g.length + w.length + (v.take 1).length }, some (p + g.length)) := by
  obtain ⟨c, w, rfl⟩ := exists_cons_of_ne_nil hne
  have hrest := hu.of_append
  have hskip : advance delimiters true fuel s.mem p = some (p + g.length) :=
    advance_append hu hg (by simpa using (forall_mem_cons.mp hw).1) hfuel
  have hend : advance delimiters false fuel s.mem (p + g.length) = some _ :=
    advance_append hrest hw (fun d hd => ne_of_eq_of_ne (hv d hd) nofun)
      (Nat.lt_of_le_of_lt (by simp) hfuel)
  have hfirst : s.mem (p + g.length) ≠ 0 := hrest.1 ▸ hrest.2.1
  unfold Shell.strtok
  rw [hp, hskip]
  simp only [bind_eq_bind, bind_some, if_neg hfirst, hend]
  have hnext := hrest.of_append
  cases v with
  | nil =>
    have hz : s.mem (p + g.length + (c :: w).length) = 0 := hnext
    rw [if_neg (not_not.mpr hz), ← hz, update_eq_self]
    rfl
  | cons d v =>
    have hz : s.mem (p + g.length + (c :: w).length) ≠ 0 := hnext.1 ▸ hnext.2.1
    rw [if_pos hz]
    rfl

/-- The token and the rest of the string are strings. -/
theorem holds_strtok_word (hu : Holds m p (g ++ (w ++ v))) :
    Holds (update m (p + g.length + w.length) 0) (p + g.length) w ∧
      Holds (update m (p + g.length + w.length) 0)
        (p + g.length + w.length + (v.take 1).length) v.tail := by
  have hrest := hu.of_append
  refine ⟨hrest.cut, ?_⟩
  cases v with
  | nil => exact update_self _ _ _
  | cons d v => exact hrest.of_append.2.2.congr fun i hi _ => update_of_ne (by omega) _ _

end

theorem contains_blank : [blank].contains = isBlank := by
  funext c
  rw [Bool.eq_iff_iff]
  simp [isBlank]

/-- Only the line has been written to. -/
theorem strtok_spec (str : Option ℕ) (hu : Holds s.mem (str.getD s.nextToken) u)
    (hlo : lo ≤ str.getD s.nextToken) (hhi : str.getD s.nextToken + u.length ≤ hi)
    (hfuel : u.length < fuel) :
    ∃ m next token, s.strtok fuel str [blank] =
        some ({ s with mem := m, nextToken := next }, token) ∧
      Cursor m next lo hi token (words isBlank u) ∧ ∀ i, i < lo ∨ hi < i → m i = s.mem i := by
  have hcut := cut_wordsFrom isBlank (Nat.le_refl u.length) 0
  generalize wordsFrom isBlank u.length 0 u = ts at hcut
  rw [hcut.words_eq]
  rw [← contains_blank] at hcut
  cases hcut with
  | none hg => exact ⟨s.mem, _, none, strtok_none rfl hu hg hfuel, .done, fun _ _ => rfl⟩
  | @word _ g w v ts hg hw hne hv hcut =>
    rw [contains_blank] at hcut
    simp only [length_append] at hhi
    have htail : (v.take 1).length + v.tail.length = v.length := by cases v <;> simp; omega
    obtain ⟨htoken, hnext⟩ := holds_strtok_word hu
    refine ⟨_, _, _, strtok_word rfl hu hg hw hne hv hfuel, ?_, fun i hi => ?_⟩
    · rw [map_cons, ← hcut.words_eq]
      exact .token hne htoken hnext (by omega) (by dsimp only; omega) (by omega) (by omega)
    · exact update_of_ne (by omega) _ _

/-! ### All tokens -/

/-- `n` calls of `strtok`, the first one with `str` and the others with null. -/
def Shell.strtokCalls (fuel : ℕ) (delimiters : List UInt8) :
    ℕ → Shell → Option ℕ → Option (Shell × List (Option ℕ))
  | 0, s, _ => some (s, [])
  | n + 1, s, str => do
      let (s, token) ← s.strtok fuel str delimiters
      let (s, tokens) ← s.strtokCalls fuel delimiters n none
      some (s, token :: tokens)

/-- **The first `n` calls**, for a string at `p` that is cut into `ts`: they return the pieces in
order and null when there is none left, every piece that was returned is a string, and only the
delimiter behind such a piece is changed. -/
structure Split (delimiters : List UInt8) (p n : ℕ) (ts : List (ℕ × List UInt8)) (s s' : Shell)
    (tokens : List (Option ℕ)) : Prop where
  result : tokens = (range n).map fun k => ts[k]?.map fun x => p + x.1
  terminated : ∀ x ∈ ts.take n, Holds s'.mem (p + x.1) x.2
  changed : ∀ a, s'.mem a ≠ s.mem a →
    ∃ x ∈ ts.take n, a = p + x.1 + x.2.length ∧ s.mem a ∈ delimiters

/-- **Call after call.** -/
theorem strtokCalls_split {delimiters : List UInt8} {q : Option ℕ} {i n : ℕ}
    {ts : List (ℕ × List UInt8)} (hp : q.getD s.nextToken = p + i) (hu : Holds s.mem (p + i) u)
    (hfuel : u.length < fuel) (hcut : Cut delimiters.contains i u ts) :
    ∃ s' tokens, s.strtokCalls fuel delimiters n q = some (s', tokens) ∧
      Split delimiters p n ts s s' tokens := by
  induction n generalizing s q i u ts with
  | zero => exact ⟨s, [], rfl, rfl, by simp, fun a ha => absurd rfl ha⟩
  | succ n ih =>
    cases hcut with
    | none hg =>
      -- the next call starts at the zero
      have hcall := strtok_none hp hu hg hfuel
      obtain ⟨s', tokens, hrun, hsplit⟩ := ih (s := { s with nextToken := p + i + u.length })
        (q := none) (i := i + u.length) (Nat.add_assoc _ _ _)
        (u := []) (by rw [← Nat.add_assoc]; exact hu.terminator) (Nat.zero_lt_of_lt hfuel)
        (.none (by simp))
      refine ⟨s', none :: tokens, ?_, ?_, by simp, ?_⟩
      · rw [Shell.strtokCalls, hcall]
        simp only [bind_eq_bind, bind_some, hrun]
      · rw [hsplit.result, range_succ_eq_map, map_cons, List.map_map]
        rfl
      · simpa using hsplit.changed
    | @word _ g w v ts hg hw hne hv hcut =>
      have hcall := strtok_word hp hu hg hw hne hv hfuel
      obtain ⟨htoken, hnext⟩ := holds_strtok_word hu
      have hterm := hu.of_append.of_append
      set e := p + i + g.length + w.length with he
      obtain ⟨s', tokens, hrun, hsplit⟩ := ih (q := none)
        (s := { s with mem := update s.mem e 0, nextToken := e + (v.take 1).length })
        (show e + _ = p + (i + g.length + w.length + (v.take 1).length) by omega)
        (by rwa [show p + (i + g.length + w.length + (v.take 1).length) = e + (v.take 1).length by
          omega]) (by simp at hfuel ⊢; omega) hcut
      -- later calls change nothing up to the zero
      have hkept : ∀ a ≤ e, s'.mem a = update s.mem e 0 a := fun a ha => by
        by_contra hne
        obtain ⟨x, hx, rfl, -⟩ := hsplit.changed a hne
        obtain ⟨hx, hle, -⟩ := hcut.bounds x (mem_of_mem_take hx)
        have hpos := length_pos_iff.mpr hx
        omega
      refine ⟨s', some (p + i + g.length) :: tokens, ?_, ?_, ?_, fun a ha => ?_⟩
      · rw [Shell.strtokCalls, hcall]
        simp only [bind_eq_bind, bind_some, hrun]
      · rw [hsplit.result, range_succ_eq_map, map_cons, List.map_map, Nat.add_assoc p]
        rfl
      · rw [take_succ_cons]
        refine forall_mem_cons.mpr ⟨?_, hsplit.terminated⟩
        rw [← Nat.add_assoc]
        exact htoken.congr fun j _ hj => hkept j hj
      · rw [take_succ_cons]
        by_cases hae : a = e
        · refine ⟨_, mem_cons_self, by dsimp only; omega, ?_⟩
          rw [hae, hkept e (Nat.le_refl e), update_self] at ha
          rw [hae]
          cases v with
          | nil => exact absurd hterm.symm ha
          | cons d v => exact hterm.1 ▸ List.contains_iff_mem.mp (hv d rfl)
        · have hsame : update s.mem e 0 a = s.mem a := update_of_ne hae _ _
          obtain ⟨x, hx, hxa, hmem⟩ := hsplit.changed a (by dsimp only; rwa [hsame])
          exact ⟨x, mem_cons_of_mem _ hx, hxa, hsame ▸ hmem⟩

/-- **`strtok`.** The calls cut the string at `p` into its words. -/
theorem strtokCalls_spec (fuel : ℕ) (s : Shell) (p : ℕ) (u delimiters : List UInt8)
    (hu : Holds s.mem p u) (hfuel : u.length < fuel) :
    ∃ ts, Cut delimiters.contains 0 u ts ∧ words delimiters.contains u = ts.map Prod.snd ∧
      ∀ n, ∃ s' tokens, s.strtokCalls fuel delimiters n (some p) = some (s', tokens) ∧
        Split delimiters p n ts s s' tokens := by
  have hcut := cut_wordsFrom delimiters.contains (Nat.le_refl u.length) 0
  exact ⟨_, hcut, hcut.words_eq, fun n => strtokCalls_split (i := 0) rfl hu hfuel hcut⟩

/-- The line ` a  b`, outside of the heap of four blocks. -/
def lineShell : Shell :=
  ⟨emptyAllocator, poke (fun _ => 7) 16 ([32, 97, 32, 32, 98] ++ [0]), 0, fun _ => 0⟩

/-- Two words, and then null. -/
theorem strtokCalls_spec_lineShell :
    ∃ ts, Cut [blank].contains 0 [32, 97, 32, 32, 98] ts ∧ ts.map Prod.snd = [[97], [98]] ∧
      ∃ s', Split [blank] 16 3 ts lineShell s' [some 17, some 20, none] := by
  obtain ⟨ts, hcut, hwords, hcalls⟩ := strtokCalls_spec 6 lineShell 16 [32, 97, 32, 32, 98] [blank]
    (holds_poke (by simp)) (by decide)
  obtain ⟨s', tokens, hrun, hsplit⟩ := hcalls 3
  have htokens : (lineShell.strtokCalls 6 [blank] 3 (some 16)).map Prod.snd =
      some [some 17, some 20, none] := by decide
  rw [hrun] at htokens
  obtain rfl := Option.some.inj htokens
  exact ⟨ts, hcut, hwords.symm.trans (by decide), s', hsplit⟩

/-! ### The loop -/

/-- The bytes from `lo` to `hi` are apart from the copy of a word. -/
def Beside (lo hi : ℕ) (x : UInt32 × List UInt8) : Prop :=
  hi < x.1.toNat ∨ x.1.toNat + x.2.length < lo

/-- Two copies are apart. -/
def Separate (x y : UInt32 × List UInt8) : Prop :=
  x.1.toNat + x.2.length < y.1.toNat ∨ y.1.toNat + y.2.length < x.1.toNat

/-- The state with a copy of `w` in the block `q`. -/
def Shell.withCopy (s : Shell) (h : Heap) (argCount : ℕ) (q : UInt32) (w : List UInt8) : Shell :=
  { s with
    alloc := { s.alloc with heap := h }
    mem := poke s.mem q.toNat (w ++ [0])
    argv := Function.update s.argv argCount q }

/-- **A token that does not start with a quote** is copied into a new block. -/
theorem storeArg_eq_some {q : UInt32} {argCount t : ℕ} (hw : Holds s.mem t w) (hne : w ≠ [])
    (hquote : quote ∉ w) (hcount : argCount < maxArgs)
    (hmalloc : kmalloc fuel s.alloc.heap (UInt32.ofNat (w.length + 1)) = some (h, q)) (hq : q ≠ 0)
    (hfuel : w.length < fuel) (hapart : t + w.length < q.toNat ∨ q.toNat + w.length < t) :
    s.storeArg fuel argCount t = some (s.withCopy h argCount q w, true) := by
  have hhead : s.mem t ≠ quote := by
    cases w with
    | nil => exact absurd rfl hne
    | cons c w => exact fun heq => hquote (by rw [← heq, hw.1]; exact mem_cons_self)
  unfold Shell.storeArg
  simp only [Nat.not_le.mpr hcount, if_false, hhead, text_eq_some hw hfuel, bind_eq_bind,
    bind_some, hmalloc, hq, Shell.setArg, strcpy_eq_some hw hfuel hapart, Shell.withCopy]

/-- What the loop leaves behind: the copies. Otherwise only the line is written to. -/
structure Copied (lo hi n : ℕ) (s s' : Shell) (zs : List (UInt32 × List UInt8)) : Prop where
  copies : ∀ i x, zs[i]? = some x → s'.argv (n + i) = x.1 ∧ Holds s'.mem x.1.toNat x.2
  earlier : ∀ i < n, s'.argv i = s.argv i
  frame : ∀ j, j < lo ∨ hi < j → (∀ x ∈ zs, j < x.1.toNat ∨ x.1.toNat + x.2.length < j) →
    s'.mem j = s.mem j

/-- **The loop.** -/
theorem parseLoop_spec {token : Option ℕ} {n k : ℕ} (hserve : Serves fuel h zs h')
    (hheap : s.alloc.heap = h) (hcursor : Cursor s.mem s.nextToken lo hi token (zs.map Prod.snd))
    (hquote : ∀ x ∈ zs, quote ∉ x.2) (hbeside : ∀ x ∈ zs, Beside lo hi x)
    (hpair : zs.Pairwise Separate) (hcount : n + zs.length ≤ maxArgs) (hfuel : hi - lo < fuel)
    (hk : zs.length ≤ k) :
    ∃ s', s.parseLoop fuel k n token = some (s', some (n + zs.length)) ∧ s'.alloc.heap = h' ∧
      Copied lo hi n s s' zs := by
  induction hserve generalizing s token n k with
  | nil =>
    cases hcursor
    refine ⟨s, by cases k <;> rfl, hheap, ?_, fun _ _ => rfl, fun _ _ _ => rfl⟩
    simp
  | @cons h h1 h' q w zs hsize hmalloc hq hserve ih =>
    generalize hws : ((q, w) :: zs).map Prod.snd = ws at hcursor
    cases hcursor with
    | done => simp at hws
    | @token t w' rest hne hw hrest hlo hhi hlo' hhi' =>
      obtain ⟨rfl, hzs⟩ : w = w' ∧ zs.map Prod.snd = words isBlank rest := by simpa using hws
      obtain ⟨hquote1, hquote⟩ := forall_mem_cons.mp hquote
      obtain ⟨hbeside1, hbeside⟩ := forall_mem_cons.mp hbeside
      obtain ⟨hpair1, hpair⟩ := pairwise_cons.mp hpair
      rw [length_cons] at hcount hk
      obtain ⟨k, rfl⟩ : ∃ i, k = i + 1 := ⟨k - 1, by omega⟩
      simp only [Beside] at hbeside1
      have hstore := storeArg_eq_some hw hne hquote1 (show n < maxArgs by omega)
        (hheap ▸ hmalloc) hq (by omega) (by omega)
      have hlen : (w ++ [0]).length = w.length + 1 := by simp
      -- the rest of the line is as before
      have hrest1 : Holds (s.withCopy h1 n q w).mem (s.withCopy h1 n q w).nextToken rest :=
        hrest.poke (by omega)
      obtain ⟨m, next, token, hstrtok, hcursor, hframe⟩ := strtok_spec none hrest1 hlo'
        hhi' (show rest.length < fuel by omega)
      rw [← hzs] at hcursor
      obtain ⟨s', hloop, hheap', hcopied⟩ :=
        ih (s := { s.withCopy h1 n q w with mem := m, nextToken := next }) rfl hcursor hquote
          hbeside hpair (show n + 1 + zs.length ≤ maxArgs by omega) (show zs.length ≤ k by omega)
      refine ⟨s', ?_, hheap', ?_, ?_, ?_⟩
      · rw [Shell.parseLoop, hstore]
        simp only [bind_eq_bind, bind_some, if_true]
        rw [hstrtok, bind_some, hloop, length_cons, Nat.add_right_comm, Nat.add_assoc]
      · intro i x hx
        cases i with
        | zero =>
          obtain rfl : (q, w) = x := by simpa using hx
          have hstored : (s.withCopy h1 n q w).argv n = q := by
            simp [Shell.withCopy]
          refine ⟨(hcopied.earlier n (Nat.lt_succ_self n)).trans hstored, ?_⟩
          have hcopy : Holds (s.withCopy h1 n q w).mem q.toNat w := holds_poke hw.ne_zero
          refine hcopy.congr fun j hj hj' => ?_
          have hline : j < lo ∨ hi < j := by omega
          rw [hcopied.frame j hline fun y hy => ?_]
          · exact hframe j hline
          · have := hpair1 y hy
            simp only [Separate] at this
            omega
        | succ i =>
          have := hcopied.copies i x (by simpa using hx)
          rwa [Nat.add_right_comm, Nat.add_assoc] at this
      · intro i hi
        rw [hcopied.earlier i (by omega)]
        exact update_of_ne (by omega) _ _
      · intro j hj hout
        obtain ⟨hout1, hout⟩ := forall_mem_cons.mp hout
        simp only at hout1
        refine (hcopied.frame j hj hout).trans ((hframe j hj).trans ?_)
        rcases hout1 with hlt | hlt
        · exact poke_of_lt hlt
        · exact poke_of_le (by omega)

theorem Serves.mono {fuel' : ℕ}
    (hserve : Serves fuel h zs h') (hle : fuel ≤ fuel') : Serves fuel' h zs h' := by
  induction hserve with
  | nil => exact .nil
  | cons hsize hmalloc hq _ ih => exact .cons hsize (kmalloc_mono hmalloc hle) hq ih

/-! ### The arguments as text -/

/-- The characters of a string. -/
def chars (w : List UInt8) : Text := w.map Char.ofUInt8

/-- The argument as in the model without the line's memory. -/
def textOf (x : UInt32 × List UInt8) : UInt32 × Text := (x.1, chars x.2)

theorem ofUInt8_inj {c d : UInt8} (h : Char.ofUInt8 c = Char.ofUInt8 d) : c = d := by
  simpa [Char.ofUInt8, Char.toUInt8] using congrArg Char.toUInt8 h

theorem map_snd_tokensAt_chars (u : List UInt8) :
    (tokensAt ' ' (chars u)).map Prod.snd = (words isBlank u).map chars := by
  have hsep : (fun x => Char.ofUInt8 x == ' ') = isBlank := by
    funext c
    exact decide_eq_decide.mpr ⟨fun h => ofUInt8_inj h, fun h => h ▸ rfl⟩
  have hcut := cut_wordsFrom isBlank (Nat.le_refl u.length) 0
  rw [hcut.words_eq, map_snd_tokensAt]
  rw [← hsep] at hcut ⊢
  exact hcut.map.words_eq.trans (by simp [chars, comp_def])

theorem argOf_chars (hquote : quote ∉ w) : argOf (chars w) = .bare (chars w) := by
  refine if_neg ?_
  cases w with
  | nil => exact nofun
  | cons c w =>
    intro h
    have hc : c = quote := ofUInt8_inj (some.inj h)
    exact hquote (hc ▸ mem_cons_self)

/-- **The loop, on the tokens' text.** -/
theorem parseLoop_chars {a : Allocator} {argv line : UInt32} {ts : List (ℕ × Text)}
    {args : List (UInt32 × Text)} (hserve : Serves fuel h zs h') (hheap : a.heap = h)
    (hquote : ∀ x ∈ zs, quote ∉ x.2) (hts : ts.map Prod.snd = zs.map fun x => chars x.2)
    (hcount : args.length + zs.length ≤ maxArgs) :
    parseLoop fuel argv line ts a args =
      some ({ a with heap := h' }, .argv argv (args ++ zs.map textOf)) := by
  induction hserve generalizing a ts args with
  | nil =>
    obtain rfl := map_eq_nil_iff.mp hts
    simp [parseLoop, ← hheap]
  | @cons h h1 h' q w zs _ hmalloc hq _ ih =>
    cases ts with
    | nil => cases hts
    | cons x ts =>
      obtain ⟨hx, hts⟩ := List.cons.inj hts
      obtain ⟨hquote1, hquote⟩ := forall_mem_cons.mp hquote
      rw [length_cons] at hcount
      have harg : argOf x.2 = .bare (chars w) := hx ▸ argOf_chars hquote1
      have hlen : (chars w).length = w.length := length_map _
      have hstore : storeArg fuel line a x = some ({ a with heap := h1 }, q, true) := by
        simp [storeArg, harg, hlen, hheap, hmalloc, hq, -UInt32.ofNat_add]
      have htail := @ih { a with heap := h1 } ts (args ++ [(q, chars w)]) rfl hquote hts
        (by rw [length_append, length_singleton]; omega)
      simp only [parseLoop, hstore, bind_some, if_true, argText, harg, htail, append_assoc]
      exact if_neg (by omega)

end

section

variable {fuel lo hi line : ℕ} {h₀ : Heap} {ns : List NodePtr} {base as bs : List Allocation}
  {s : Shell} {x y : UInt32 × List UInt8}

/-! ### The blocks -/

/-- **The blocks for the words** are allocated, and there are no others. -/
theorem Serves.owns (hserve : Serves fuel h zs h') (hb : Ready h₀ ns base)
    (ho : Owns h₀ ns h bs) : Owns h₀ ns h' (bs ++ zs.map blockOf) := by
  induction hserve generalizing bs with
  | nil => simpa using ho
  | cons hsize hmalloc hq _ ih =>
    have ho' := ho.kmalloc hb (sizeFits_ofNat (by omega) (by omega)) ⟨fuel, hmalloc⟩
    rw [if_neg hq] at ho'
    have := ih ho'
    rwa [append_assoc] at this

theorem Serves.toNat_size (hserve : Serves fuel h zs h') (hx : x ∈ zs) :
    (blockOf x).size.toInt.toNat = x.2.length + 1 := by
  induction hserve with
  | nil => cases hx
  | cons hsize _ _ _ ih =>
    rcases mem_cons.mp hx with rfl | hx
    · exact toNat_size_ofNat (by dsimp only; omega)
    · exact ih hx

theorem Serves.pairwise (hserve : Serves fuel h zs h') (hb : Ready h₀ ns base)
    (ho : Owns h₀ ns h bs) : zs.Pairwise Separate := by
  have ho' := hserve.owns hb ho
  have hnd := ho'.nodup hb
  rw [List.map_append, List.map_map] at hnd
  have hptr : zs.Pairwise fun x y => (blockOf x).ptr ≠ (blockOf y).ptr :=
    List.pairwise_map.mp (List.nodup_append.mp hnd).2.1
  refine hptr.imp_of_mem fun {x y} hx hy hne => ?_
  have hapart := ho'.apart_bytes hb (List.mem_append_right bs (List.mem_map_of_mem hx))
    (List.mem_append_right bs (List.mem_map_of_mem hy)) hne
  rw [hserve.toNat_size hx, hserve.toNat_size hy] at hapart
  exact hapart

end

section

variable {h₀ h' : Heap} {ns : List NodePtr} {base as : List Allocation} {s : Shell}
  {line : ℕ} {u : List UInt8} {a : Allocator} {argv : UInt32}
  {zs : List (UInt32 × List UInt8)} (hb : Ready h₀ ns base) (ho : Owns h₀ ns s.alloc.heap as)
  (hline : Holds s.mem line u) (hquote : quote ∉ u) (hcount : (words isBlank u).length ≤ 64)
  (hfree : ∀ q ∈ ns, (s.alloc.heap.node q).allocated = false →
    line + u.length < (s.alloc.heap.node q).addr.toNat ∨
      (s.alloc.heap.node q).addr.toNat + blockSize ≤ line)
  (hargv : Returns (mallocInt · s.alloc 256) (a, argv)) (hne : argv ≠ 0)
  (hserve : ∃ fuel, Serves fuel a.heap zs h') (hzs : zs.map Prod.snd = words isBlank u)

include hb ho hline hquote hcount hfree hargv hne hserve hzs

/-- **The two models of `parse_command` agree**: on the line in memory, and on its text. -/
theorem exists_parseCommand (addr : UInt32) :
    ∃ s', Returns (s.parseCommand · line) (s', argv, some ((words isBlank u).length : ℤ)) ∧
      Returns (parseCommand · s.alloc addr (chars u))
        ({ a with heap := s'.alloc.heap }, .argv argv (zs.map textOf)) ∧
      Owns h₀ ns s'.alloc.heap (as ++ ⟨argv, 256⟩ :: zs.map blockOf) ∧
      ∀ i x, zs[i]? = some x → s'.argv i = x.1 ∧ Holds s'.mem x.1.toNat x.2 := by
  obtain ⟨f1, hargv⟩ := hargv
  obtain ⟨f2, hserve⟩ := hserve
  obtain ⟨fuel, hle1, hle2, hlen, h64⟩ :
      ∃ fuel, f1 ≤ fuel ∧ f2 ≤ fuel ∧ u.length < fuel ∧ 64 ≤ fuel :=
    ⟨max (max f1 f2) (max (u.length + 1) 64), by omega, by omega, by omega, by omega⟩
  have hmalloc := mallocInt_mono hargv hle1
  have hserve := hserve.mono hle2
  have ho1 := ho.mallocInt hb (.inl ⟨by decide, by decide⟩) ⟨fuel, hmalloc⟩
  rw [if_neg hne] at ho1
  have ho2 := hserve.owns hb ho1
  have hwords : zs.length = (words isBlank u).length := by rw [← hzs, length_map]
  have hcount' : 0 + zs.length ≤ maxArgs := by rw [hwords, Nat.zero_add]; exact hcount
  have hquotes : ∀ x ∈ zs, quote ∉ x.2 := by
    intro x hx hmem
    have hword : x.2 ∈ words isBlank u := hzs ▸ mem_map_of_mem hx
    exact hquote ((of_mem_words hword).1 hmem)
  have hbeside : ∀ x ∈ zs, Beside line (line + u.length) x := by
    intro x hx
    rw [append_assoc] at ho2
    have hapart := ho.apart_of_free ho2 hb (mem_append_right _ (mem_map_of_mem hx)) hfree
    rw [hserve.toNat_size hx] at hapart
    exact hapart
  obtain ⟨m, next, token, hstrtok, hcursor, -⟩ := strtok_spec (s := { s with alloc := a })
    (some line) hline (Nat.le_refl line) (Nat.le_refl (line + u.length)) hlen
  rw [← hzs] at hcursor
  obtain ⟨s', hloop, hheap, hcopied⟩ := parseLoop_spec hserve
    (s := { s with alloc := a, mem := m, nextToken := next }) rfl hcursor hquotes hbeside
    (hserve.pairwise hb ho1)
    hcount' (show line + u.length - line < fuel by omega) (show zs.length ≤ fuel by omega)
  refine ⟨s', ⟨fuel, ?_⟩, ⟨fuel, ?_⟩, ?_, ?_⟩
  · unfold Shell.parseCommand
    simp only [hmalloc, bind_eq_bind, bind_some, hne, if_false, hstrtok, hloop,
      Nat.zero_add, hwords]
  · simp only [parseCommand, hmalloc, bind_some, if_neg hne]
    rw [hheap]
    refine parseLoop_chars hserve rfl hquotes ?_ hcount'
    rw [map_snd_tokensAt_chars, ← hzs, List.map_map, comp_def]
  · rw [hheap]
    simpa using ho2
  · simpa using hcopied.copies

/-- **`parse_command`**, for every line without quotes of at most 64 words, with enough memory: the
arguments are copies of the words, each in a block of its own, and no other block is allocated. -/
theorem parseCommand_spec :
    ∃ s', Returns (s.parseCommand · line) (s', argv, some ((words isBlank u).length : ℤ)) ∧
      Owns h₀ ns s'.alloc.heap (as ++ ⟨argv, 256⟩ :: zs.map blockOf) ∧
      ∀ i x, zs[i]? = some x → s'.argv i = x.1 ∧ Holds s'.mem x.1.toNat x.2 := by
  obtain ⟨s', hres, -, h⟩ :=
    exists_parseCommand hb ho hline hquote hcount hfree hargv hne hserve hzs 0
  exact ⟨s', hres, h⟩

end

/-- Two words, and three blocks. -/
theorem parseCommand_spec_lineShell :
    ∃ s', Returns (lineShell.parseCommand · 16) (s', 0x1400, some 2) ∧
      (s'.argv 0 = 0x1800 ∧ Holds s'.mem 0x1800 [97]) ∧
      s'.argv 1 = 0x1C00 ∧ Holds s'.mem 0x1C00 [98] := by
  have hready : Ready rowHeap rowNodes [] := Ready.of_reachable initial_rowHeap .start rfl rfl rfl
  have hline : Holds lineShell.mem 16 [32, 97, 32, 32, 98] := holds_poke (by simp)
  have hwords : words isBlank [32, 97, 32, 32, 98] = [[97], [98]] := by decide
  have hfree : ∀ q ∈ rowNodes, (rowHeap.node q).allocated = false →
      16 + [32, 97, 32, 32, 98].length < (rowHeap.node q).addr.toNat ∨
        (rowHeap.node q).addr.toNat + blockSize ≤ 16 := by
    intro q hq _
    simp only [mem_cons, not_mem_nil, or_false] at hq
    rcases hq with rfl | rfl | rfl | rfl
    all_goals exact .inl (by decide)
  have hargv : Returns (mallocInt · lineShell.alloc 256)
      (runCalls emptyAllocator [.malloc 256], 0x1400) := ⟨4, rfl⟩
  obtain ⟨h', hserve⟩ : ∃ h', Serves 4 (runCalls emptyAllocator [.malloc 256]).heap
      [(0x1800, [97]), (0x1C00, [98])] h' :=
    ⟨_, .cons (by decide) rfl (by decide) (.cons (by decide) rfl (by decide) .nil)⟩
  obtain ⟨s', hreturns, -, hargs⟩ := parseCommand_spec hready hready.owns hline (by simp [quote])
    (by rw [hwords]; decide) hfree hargv (by decide) ⟨4, hserve⟩ hwords.symm
  exact ⟨s', hreturns, hargs 0 _ rfl, hargs 1 _ rfl⟩

end AthenX.Cmd
