import AthenX.Cmd.Parse
import AthenX.KHeap.Release

/-!
# Parsing a command line and releasing the arguments

`free_command` of `kernel/cmd/command.c` releases every argument of `parse_command` and the array.
The argument for a token with only one quote is a pointer into the line, which may be the block of
the line itself. When there is no memory for an argument, the array and the arguments so far are
lost.
-/

namespace AthenX.Cmd

open KHeap Scan Linked List Option

/-! ### The source, the property and the condition -/

/-- `free_command`. -/
def freeCommand (fuel : ℕ) (s : Allocator) (argv : UInt32) (args : List (UInt32 × Text)) :
    Option Allocator :=
  (args.foldlM (fun s x => free fuel s x.1) s).bind fun s => free fuel s argv

/-- The line, with the zero at its end, is in one of the allocated blocks. -/
def InBlocks (base : List Allocation) (line : UInt32) (text : Text) : Prop :=
  ∃ a ∈ base, a.size.toInt + 1023 ≤ 2147483647 ∧ a.ptr.toNat ≤ line.toNat ∧
    line.toNat + text.length < a.ptr.toNat + a.size.toInt.toNat ∧ line.toNat + text.length < 2 ^ 32

/-- The result, if any, is released: the same blocks are allocated as before. -/
def Balanced (s : Allocator) (ns : List NodePtr) (s' : Allocator) : Outcome → Prop
  | .null _ => SameBlocks s.heap s'.heap ns
  | .overrun => False
  | .argv p args => ∃ s'', Returns (freeCommand · s' p args) s'' ∧
      SameBlocks s.heap s''.heap ns

/-- `parse_command` returns, and then `free_command`. -/
def Balances (s : Allocator) (ns : List NodePtr) (line : UInt32) (text : Text) : Prop :=
  ∃ s' r, Returns (parseCommand · s line text) (s', r) ∧ Balanced s ns s' r

/-- No block starts at a token with only one quote. -/
def Inner (h : Heap) (ns : List NodePtr) (line : UInt32) (text : Text) : Prop :=
  ∀ x ∈ tokensAt ' ' text, argOf x.2 = .token → ∀ q ∈ ns, (h.node q).addr ≠ line + UInt32.ofNat x.1

/-- The allocator has no block for the array; or it has one, and one for each copy, there are not
too many tokens, and no block starts at a token with only one quote. -/
def Clean (s : Allocator) (ns : List NodePtr) (line : UInt32) (text : Text) : Prop :=
  ∃ s1 p, Returns (mallocInt · s 256) (s1, p) ∧
    (p = 0 ∨ Supplied s1 (tokensAt ' ' text) ∧ (tokensAt ' ' text).length ≤ maxArgs ∧
      Inner s.heap ns line text)

/-! ### What is allocated -/

/-- The pointers stored for the tokens, and the blocks allocated for them. -/
inductive Stored (line : UInt32) : List (ℕ × Text) → List UInt32 → List Allocation → Prop
  | nil : Stored line [] [] []
  | token {offset : ℕ} {t : Text} {ts : List (ℕ × Text)} {ps : List UInt32}
      {cs : List Allocation} : argOf t = .token → Stored line ts ps cs →
      Stored line ((offset, t) :: ts) ((line + UInt32.ofNat offset) :: ps) cs
  | copy {offset : ℕ} {t : Text} {ts : List (ℕ × Text)} {ps : List UInt32}
      {cs : List Allocation} {c : Allocation} : argOf t ≠ .token → Stored line ts ps cs →
      Stored line ((offset, t) :: ts) (c.ptr :: ps) (c :: cs)

section

variable {fuel : ℕ} {line argv p : UInt32} {s s' s'' : Allocator} {ns : List NodePtr}
  {base bs cs : List Allocation} {h0 : Heap} {text t : Text} {r : Outcome} {q : NodePtr}

theorem length_of_quoted {u : Text} (h : argOf t = .quoted u) : u.length + 2 ≤ t.length := by
  unfold argOf at h
  split at h
  · next hhead =>
    split at h
    · next hmem =>
      obtain rfl := Arg.quoted.inj h
      obtain ⟨v, rfl⟩ := List.head?_eq_some_iff.mp hhead
      rw [tail_cons] at hmem ⊢
      have hlt : (v.takeWhile (· ≠ '"')).length < v.length := by
        by_contra hge
        have hpre : v.takeWhile (· ≠ '"') <+: v := takeWhile_prefix (· ≠ '"')
        have hself := hpre.eq_of_length_le (by omega)
        rw [← hself] at hmem
        simpa using mem_takeWhile_imp hmem
      rw [length_cons]
      omega
    · cases h
  · cases h

theorem eq_of_bare {u : Text} (h : argOf t = .bare u) : u = t := by
  unfold argOf at h
  split at h
  · split at h <;> cases h
  · exact (Arg.bare.inj h).symm

theorem owns_storeArg {x : ℕ × Text} {success : Bool} (hb : Ready h0 ns base)
    (ho : Owns h0 ns s.heap bs) (ht : x.2.length + 1024 ≤ 2147483647)
    (hstore : storeArg fuel line s x = some (s', p, success)) :
    (argOf x.2 = .token ∧ success = true ∧ p = line + UInt32.ofNat x.1 ∧ s' = s) ∨
      argOf x.2 ≠ .token ∧ ∃ n, Owns h0 ns s'.heap (if success then bs ++ [⟨p, n⟩] else bs) := by
  unfold storeArg at hstore
  cases harg : argOf x.2 <;> simp only [harg] at hstore
  · cases hstore
    exact .inl ⟨rfl, rfl, rfl, rfl⟩
  · obtain ⟨⟨s1, q⟩, halloc, heq⟩ := map_eq_some_iff.mp hstore
    cases heq
    have hu := length_of_quoted harg
    have ho1 := ho.mallocInt hb (sizeFits_ofNat (by omega) (by omega)) ⟨fuel, halloc⟩
    exact .inr ⟨Arg.noConfusion, _, by simpa using ho1⟩
  · obtain ⟨⟨h1, q⟩, halloc, heq⟩ := map_eq_some_iff.mp hstore
    cases heq
    obtain rfl := eq_of_bare harg
    have ho1 := ho.kmalloc hb (sizeFits_ofNat (by omega) (by omega)) ⟨fuel, halloc⟩
    exact .inr ⟨Arg.noConfusion, _, by simpa using ho1⟩

/-- **What is allocated by the loop**, and what is stored. -/
theorem owns_parseLoop (hb : Ready h0 ns base) : ∀ {ts : List (ℕ × Text)} {s : Allocator}
    {args : List (UInt32 × Text)} {bs : List Allocation}, Owns h0 ns s.heap bs →
    (∀ x ∈ ts, x.2.length + 1024 ≤ 2147483647) →
    parseLoop fuel argv line ts s args = some (s', r) →
    r = .overrun ∨ ∃ cs, Owns h0 ns s'.heap (bs ++ cs) ∧ (r = .null (some (-1)) ∨
      ∃ new, r = .argv argv (args ++ new) ∧ Stored line ts (new.map Prod.fst) cs) := by
  intro ts
  induction ts with
  | nil =>
    intro s args bs ho _ hres
    cases hres
    exact .inr ⟨[], by rwa [append_nil], .inr ⟨[], by rw [append_nil], .nil⟩⟩
  | cons x ts ih =>
    intro s args bs ho hlen hres
    obtain ⟨ht, hlen⟩ := forall_mem_cons.mp hlen
    rw [parseLoop] at hres
    split at hres
    · cases hres
      exact .inl rfl
    obtain ⟨⟨s1, p, success⟩, hstore, hrest⟩ := bind_eq_some_iff.mp hres
    rcases owns_storeArg hb ho ht hstore with ⟨harg, rfl, rfl, rfl⟩ | ⟨harg, n, ho1⟩
    · rcases ih ho hlen hrest with hover | ⟨cs, ho', hnull | ⟨new, rfl, hstored⟩⟩
      · exact .inl hover
      · exact .inr ⟨cs, ho', .inl hnull⟩
      · exact .inr ⟨cs, ho', .inr ⟨(_, argText x.2) :: new, by simp, .token harg hstored⟩⟩
    · cases success with
      | false =>
        cases hrest
        exact .inr ⟨[], by rw [append_nil]; exact ho1, .inl rfl⟩
      | true =>
        rcases ih ho1 hlen hrest with hover | ⟨cs, ho', hnull | ⟨new, rfl, hstored⟩⟩
        · exact .inl hover
        · exact .inr ⟨⟨p, n⟩ :: cs, by simpa using ho', .inl hnull⟩
        · exact .inr ⟨⟨p, n⟩ :: cs, by simpa using ho', .inr ⟨(p, argText x.2) :: new, by simp,
            .copy (c := ⟨p, n⟩) harg hstored⟩⟩

/-- **What is allocated after the call**, if there is an array. -/
theorem owns_parseCommand (hb : Ready s.heap ns base) (hline : InBlocks base line text)
    (halloc : mallocInt fuel s 256 = some (s'', p)) (hp : p ≠ 0)
    (hres : parseLoop fuel p line (tokensAt ' ' text) s'' [] = some (s', r)) :
    r = .overrun ∨ ∃ a cs, Owns s.heap ns s'.heap (base ++ a :: cs) ∧ (r = .null (some (-1)) ∨
      ∃ args, r = .argv a.ptr args ∧ Stored line (tokensAt ' ' text) (args.map Prod.fst) cs) := by
  have ho := hb.owns.mallocInt hb (.inl (by decide)) ⟨fuel, halloc⟩
  rw [if_neg hp] at ho
  have hlen : ∀ x ∈ tokensAt ' ' text, x.2.length + 1024 ≤ 2147483647 := fun x hx => by
    have := (lt_of_mem_tokensAt hx).1
    obtain ⟨a, -, hsize, hle, hlt, -⟩ := hline
    omega
  rcases owns_parseLoop hb ho hlen hres with hover | ⟨cs, ho', hend⟩
  · exact .inl hover
  · rw [append_assoc] at ho'
    refine .inr ⟨_, cs, ho', hend.imp id ?_⟩
    rintro ⟨new, rfl, hstored⟩
    exact ⟨new, by rw [nil_append], hstored⟩

/-! ### Releasing -/

theorem exists_frees (hb : Ready h0 ns base) {ts : List (ℕ × Text)} {ps : List UInt32}
    (hst : Stored line ts ps cs) : ∀ {s : Allocator}, Owns h0 ns s.heap (bs ++ cs) →
    (∀ x ∈ ts, argOf x.2 = .token → ∀ q ∈ ns, (h0.node q).addr ≠ line + UInt32.ofNat x.1) →
    ∃ s', ps.foldlM (free (ns.length + 1)) s = some s' ∧ Owns h0 ns s'.heap bs := by
  induction hst with
  | nil =>
    intro s ho _
    exact ⟨s, rfl, by rwa [append_nil] at ho⟩
  | @token offset t ts ps cs harg _ ih =>
    intro s ho hclean
    obtain ⟨hnot, hclean⟩ := forall_mem_cons.mp hclean
    have hk := kfree_of_notAddr (ho.chain hb) (ho.nodes.memLockFree.trans hb.unlockedFree)
      fun q hq => by
        rw [ho.nodes.addr]
        exact hnot harg q hq
    obtain ⟨s1, hfree, hheap⟩ := exists_free hk
    obtain ⟨s', hrest, ho'⟩ := ih (hheap ▸ ho) hclean
    exact ⟨s', by rw [foldlM_cons, hfree]; exact hrest, ho'⟩
  | @copy offset t ts ps cs c _ _ ih =>
    intro s ho hclean
    obtain ⟨s1, hfree, ho1⟩ := ho.exists_free hb
    obtain ⟨s', hrest, ho'⟩ := ih ho1 (forall_mem_cons.mp hclean).2
    exact ⟨s', by rw [foldlM_cons, hfree]; exact hrest, ho'⟩

theorem frees_cons {ps : List UInt32}
    (hres : (p :: ps).foldlM (free fuel) s = some s') :
    ∃ s1, kfree fuel s.heap p = some s1.heap ∧ ps.foldlM (free fuel) s1 = some s' := by
  obtain ⟨s1, hfree, hrest⟩ := bind_eq_some_iff.mp hres
  exact ⟨s1, free_eq_some hfree, hrest⟩

theorem shrinks_frees : ∀ {ps : List UInt32} {s : Allocator},
    ps.foldlM (free fuel) s = some s' → Shrinks s.heap s'.heap := by
  intro ps
  induction ps with
  | nil =>
    intro s hres
    cases hres
    exact Shrinks.refl _
  | cons p ps ih =>
    intro s hres
    obtain ⟨s1, hk, hrest⟩ := frees_cons hres
    exact (shrinks_kfree hk).trans (ih hrest)

theorem frees_clears (hq : q ∈ ns) : ∀ {ps : List UInt32} {s : Allocator},
    s.heap.Chained ns → Spaced s.heap ns → (s.heap.node q).addr ∈ ps →
    ((s.heap.node q).allocated = true → 0 < (s.heap.node q).numBlockUsed.toNat) →
    ps.foldlM (free fuel) s = some s' → (s'.heap.node q).allocated = false := by
  intro ps
  induction ps with
  | nil => intro s _ _ hmem; cases hmem
  | cons p ps ih =>
    intro s hc hs hmem hpos hres
    obtain ⟨s1, hk, hrest⟩ := frees_cons hres
    rcases mem_cons.mp hmem with rfl | hmem
    · have hfree := kfree_clears hc hs hq hpos hk
      rcases shrinks_frees hrest q with heq | hfree'
      · rw [heq, hfree]
      · exact hfree'
    · have hn := sameNodes_kfree hk
      refine ih (hn.chained hc) (hn.spaced hs) (hn.addr q ▸ hmem) ?_ hrest
      intro hal
      rcases shrinks_kfree hk q with heq | hfree
      · rw [heq] at hal ⊢
        exact hpos hal
      · rw [hfree] at hal
        cases hal

theorem freeCommand_eq (fuel : ℕ) (s : Allocator) (argv : UInt32) (args : List (UInt32 × Text)) :
    freeCommand fuel s argv args = (args.map Prod.fst ++ [argv]).foldlM (free fuel) s := by
  rw [freeCommand, foldlM_append, foldlM_map]
  cases args.foldlM (fun s x => free fuel s x.1) s with
  | none => rfl
  | some s1 => exact (bind_pure (free fuel s1 argv)).symm

/-! ### The line -/

theorem Stored.token_mem {ts : List (ℕ × Text)} {ps : List UInt32} (hst : Stored line ts ps cs)
    {x : ℕ × Text} (hx : x ∈ ts) (harg : argOf x.2 = .token) : line + UInt32.ofNat x.1 ∈ ps := by
  induction hst with
  | nil => cases hx
  | token _ _ ih =>
    rcases mem_cons.mp hx with rfl | hx
    · exact mem_cons_self
    · exact mem_cons_of_mem _ (ih hx)
  | copy hne _ ih =>
    rcases mem_cons.mp hx with rfl | hx
    · exact absurd harg hne
    · exact mem_cons_of_mem _ (ih hx)

theorem allocated_of_inBlocks {h : Heap} (hb : Ready h0 ns base) (hline : InBlocks base line text)
    (ho : Owns h0 ns h (base ++ cs)) {k : ℕ} (hk : k < text.length) (hq : q ∈ ns)
    (haddr : (h0.node q).addr = line + UInt32.ofNat k) : (h.node q).allocated = true := by
  obtain ⟨a, ha, hsize, hle, hlt, hbound⟩ := hline
  refine (ho.allocated_iff hb.spaced hq).mpr ⟨a, mem_append_left cs ha, ?_⟩
  have hblocks := toNat_le_blocks a
  rw [haddr, UInt32.toNat_add, UInt32.toNat_ofNat', Nat.mod_eq_of_lt (by omega : k < 2 ^ 32)]
  omega

theorem balanced_argv_iff {a : Allocation} {args : List (UInt32 × Text)}
    (hb : Ready s.heap ns base) (hline : InBlocks base line text)
    (ho : Owns s.heap ns s'.heap (base ++ a :: cs))
    (hst : Stored line (tokensAt ' ' text) (args.map Prod.fst) cs) :
    Balanced s ns s' (.argv a.ptr args) ↔ Inner s.heap ns line text := by
  constructor
  · rintro ⟨s'', ⟨fuel, hres⟩, hsame⟩ x hx harg q hq haddr
    replace hres := (freeCommand_eq fuel s' a.ptr args).symm.trans hres
    have howns : Owns s.heap ns s.heap (base ++ []) := (append_nil base).symm ▸ hb.owns
    have hold := allocated_of_inBlocks hb hline howns (lt_of_mem_tokensAt hx).2 hq haddr
    have hmem : (s'.heap.node q).addr ∈ args.map Prod.fst ++ [a.ptr] := by
      rw [ho.nodes.addr, haddr]
      exact mem_append_left _ (hst.token_mem hx harg)
    have hfree := frees_clears hq (ho.chain hb) (ho.spaced hb) hmem (ho.numBlockUsed_pos hq) hres
    rw [(hsame q hq).1, hold] at hfree
    cases hfree
  · intro hclean
    rw [← singleton_append, ← append_assoc] at ho
    obtain ⟨s1, hargs, ho1⟩ := exists_frees hb hst ho hclean
    obtain ⟨s2, harray, ho2⟩ := ho1.exists_free hb
    rw [append_nil] at ho2
    refine ⟨s2, ⟨ns.length + 1, ?_⟩, hb.owns.sameBlocks ho2 hb.spaced⟩
    change freeCommand (ns.length + 1) s' a.ptr args = some s2
    rw [freeCommand_eq, foldlM_append, hargs]
    exact (bind_pure (free (ns.length + 1) s1 a.ptr)).trans harray

/-- **The same blocks are allocated as before if and only if the call is clean.** -/
theorem balances_iff_clean (hb : Ready s.heap ns base) (hline : InBlocks base line text) :
    Balances s ns line text ↔ Clean s ns line text := by
  constructor
  · rintro ⟨s', r, ⟨fuel, hres⟩, hbal⟩
    obtain ⟨⟨s1, p⟩, halloc, hloop⟩ := bind_eq_some_iff.mp hres
    refine ⟨s1, p, ⟨fuel, halloc⟩, or_iff_not_imp_left.mpr fun hp => ?_⟩
    dsimp only at hloop
    rw [if_neg hp] at hloop
    rcases owns_parseCommand hb hline halloc hp hloop with
      rfl | ⟨a, cs, ho, rfl | ⟨args, rfl, hst⟩⟩
    · exact hbal.elim
    · exact absurd hbal (hb.owns.not_sameBlocks ho hb)
    · obtain ⟨hsup, hlen⟩ := supplied_of_parseLoop hloop (Nat.zero_le _)
      rw [length_nil, Nat.zero_add] at hlen
      exact ⟨hsup, hlen, (balanced_argv_iff hb hline ho hst).mp hbal⟩
  · rintro ⟨s1, p, hargv, hclean⟩
    by_cases hp : p = 0
    · subst hp
      have ho := hb.owns.mallocInt hb (.inl (by decide)) hargv
      obtain ⟨fuel, halloc⟩ := hargv
      exact ⟨s1, .null none, ⟨fuel, bind_eq_some_iff.mpr ⟨_, halloc, if_pos rfl⟩⟩,
        hb.owns.sameBlocks ho hb.spaced⟩
    · obtain ⟨hsup, hlen, hinner⟩ := hclean.resolve_left hp
      obtain ⟨s', r, hret, hr⟩ := returns_parseCommand line hargv hp
        (by rwa [take_of_length_le hlen])
      refine ⟨s', r, hret, ?_⟩
      obtain ⟨fuel, hres⟩ := hret
      have hmany := texts_of_parseCommand hres hr
      obtain ⟨⟨s2, p2⟩, halloc, hloop⟩ := bind_eq_some_iff.mp hres
      dsimp only at hloop
      split at hloop
      · cases hloop
        exact absurd rfl (hr none)
      · next hp2 =>
        rcases owns_parseCommand hb hline halloc hp2 hloop with
          rfl | ⟨a, cs, ho, rfl | ⟨args, rfl, hst⟩⟩
        · rcases hmany with ⟨-, hlt⟩ | htexts
          · rw [← map_snd_tokensAt, length_map] at hlt
            omega
          · cases htexts
        · exact absurd rfl (hr _)
        · exact (balanced_argv_iff hb hline ho hst).mpr hinner

end

/-! ### A line with its own block -/

/-- A block of eight bytes for the line, at `0x1400`. -/
def lineState : Allocator :=
  { emptyAllocator with heap := ((sysAllocateMemory 4 rowHeap 8).getD (rowHeap, 0)).1 }

/-- A line without quotes. -/
theorem balances_plain : Balances lineState rowNodes 0x1400 "ls".toList := by
  have hr : Reachable rowHeap lineState.heap [⟨0x1400, 8⟩] :=
    Reachable.allocate (p := 0x1400) .start ⟨by decide, by decide, by decide⟩ ⟨4, rfl⟩
  have hargs : ∀ x ∈ tokensAt ' ' "ls".toList, argOf x.2 ≠ .token := by decide
  have hargv : Returns (mallocInt · lineState 256)
      (runCalls lineState [.malloc 256], 0x1800) := ⟨4, rfl⟩
  refine (balances_iff_clean (Ready.of_reachable initial_rowHeap hr rfl rfl rfl)
    ⟨⟨0x1400, 8⟩, mem_cons_self, by decide, by decide, by decide, by decide⟩).mpr
    ⟨_, _, hargv, .inr ⟨?_, by decide, fun x hx harg => absurd harg (hargs x hx)⟩⟩
  exact ⟨_, 0x1C00, ⟨4, rfl⟩, by decide, trivial⟩

/-- A line with one quote: its own block is released. -/
theorem not_balanced_quote : ∃ s' argv args,
    Returns (parseCommand · lineState 0x1400 "\"ls".toList) (s', .argv argv args) ∧
    ∃ s'', Returns (freeCommand · s' argv args) s'' ∧
      (lineState.heap.node 0x118).addr = 0x1400 ∧
      (lineState.heap.node 0x118).allocated = true ∧
      (s''.heap.node 0x118).allocated = false := by
  have hview : ((parseCommand 5 lineState 0x1400 "\"ls".toList).bind fun x =>
      x.2.casesOn (fun _ => none) none fun argv args =>
        (freeCommand 5 x.1 argv args).map fun s'' => (s''.heap.node 0x118).allocated) =
      some false := by decide
  obtain ⟨⟨s', r⟩, hres, hrest⟩ := bind_eq_some_iff.mp hview
  cases r with
  | null argc => cases hrest
  | overrun => cases hrest
  | argv argv args =>
    obtain ⟨s'', hfree, hnot⟩ := map_eq_some_iff.mp hrest
    exact ⟨s', argv, args, ⟨5, hres⟩, s'', ⟨5, hfree⟩, rfl, rfl, hnot⟩

end AthenX.Cmd
