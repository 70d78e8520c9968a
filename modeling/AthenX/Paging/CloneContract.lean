import AthenX.Paging.Cloned

/-!
# When a clone is a copy

A clone should share the page tables that its source shares with the kernel, have its own pages with
the same contents for all others, and leave the source as it was: `Clones`. But `copy_page_physical`
writes what a free page contained over the page of the source. So a clone is a copy whatever that is
only if there is nothing to copy, `Plain`.
-/

namespace AthenX.Paging

open List

/-- The directory in frame `C` is a clone of the one in frame `S`. -/
structure Clones (m : Machine) (S K : ℕ) (m' : Machine) (C : ℕ) : Prop where
  /-- The frames that the source maps are unchanged. -/
  unchanged : ∀ f, Mapped m S f → ∀ k < 1024, m'.mem f k = m.mem f k
  /-- The page tables that are shared are those of the kernel directory. -/
  shared : ∀ i < 1024, m.mem S i ≠ 0 → (m'.mem C i = m.mem S i ↔ m.mem S i = m.mem K i)
  /-- Every other page has a fresh frame with the same contents. -/
  copied : ∀ i < 1024, Private m S K i → ∀ j < 1024, pteAt m S i j ≠ 0 →
    present (m'.mem C i) = true ∧ present (pteAt m' C i j) = true ∧
    FreeFrame m (frameOf (pteAt m' C i j)) ∧
    ∀ k < 1024, m'.mem (frameOf (pteAt m' C i j)) k = m.mem (frameOf (pteAt m S i j)) k
  /-- No flag is lost. -/
  flags : ∀ i < 1024, Private m S K i → ∀ j < 1024, pteAt m S i j ≠ 0 →
    pteAt m' C i j &&& (pteAt m S i j &&& pageFlagsMask) = pteAt m S i j &&& pageFlagsMask
  /-- Different pages have different frames. -/
  distinct : ∀ i < 1024, Private m S K i → ∀ j < 1024, pteAt m S i j ≠ 0 →
    ∀ i' < 1024, Private m S K i' → ∀ j' < 1024, pteAt m S i' j' ≠ 0 →
    frameOf (pteAt m' C i j) = frameOf (pteAt m' C i' j') → i = i' ∧ j = j'

/-- Only the contents of the free pages are different. -/
structure SameButFree (m m₁ : Machine) (free : List UInt32) : Prop where
  setup : SameSetup m m₁
  loc : m₁.pmmStackLoc = m.pmmStackLoc
  mem : ∀ f, (∀ p ∈ free, f ≠ frameOf p) → m₁.mem f = m.mem f

/-- Whatever the free pages contain, `clone_directory` returns a clone of the source. -/
def Faithful (m : Machine) (src : PageDirectory) (K : ℕ) (free : List UInt32) : Prop :=
  ∀ m₁, SameButFree m m₁ free → ∃ dir m', cloneDirectory m₁ src = some (dir, m') ∧
    Clones m₁ (frameOf src.physical) K m' (frameOf dir.physical)

/-- No page is in a page table other than the kernel's, which the source does not share where the
clone maps itself, and it is not current unless it is the kernel's. -/
structure Plain (m : Machine) (D K S : ℕ) : Prop where
  current : S = D → K = D
  empty : ∀ i < 1024, Private m S K i → ∀ j < 1024, pteAt m S i j = 0
  self : ∀ i, i = 958 ∨ i = 959 → m.mem S i ≠ 0 → m.mem S i ≠ m.mem K i

variable {m m₁ : Machine} {D E K S f i j : ℕ} {p : UInt32} {src : PageDirectory}

theorem Plain.not_privatePage (h : Plain m D K S) : ¬PrivatePage m S K f := by
  rintro ⟨i, hi, hp, j, hj, hne, -⟩
  exact hne (h.empty i hi hp j hj)

/-! ### The contents of the free pages -/

section

variable (hE : m₁.mem E = m.mem E)
  (htable : ∀ i < 1024, m.mem E i ≠ 0 → m₁.mem (frameOf (m.mem E i)) = m.mem (frameOf (m.mem E i)))

include hE htable

theorem mapped_congr : Mapped m₁ E f ↔ Mapped m E f := by
  rw [Mapped, hE]
  refine exists_congr fun i => and_congr_right fun hi => and_congr_right fun hne => ?_
  have hpte : ∀ j, pteAt m₁ E i j = pteAt m E i j := by
    intro j
    rw [pteAt, pteAt, hE, htable i hi hne]
  simp [hpte]

theorem uses_congr : Uses m₁ E f ↔ Uses m E f := by
  have htabled : Tabled m₁ E f ↔ Tabled m E f := by rw [Tabled, Tabled, hE]
  rw [Uses, Uses, htabled, mapped_congr hE htable]

end

namespace SameButFree

variable {T w : ℕ} {used free : List UInt32}

section

variable (s : SameButFree m m₁ free) (h : Source m D T K w used free S)

include s h

theorem mem_eq (hf : Rests m D T K w used f ∨ Uses m S f ∨ Uses m K f) : m₁.mem f = m.mem f := by
  refine s.mem f ?_
  rintro p hp rfl
  obtain ⟨h1, h2, h3⟩ := h.unused p hp
  exact hf.elim h1 (Or.elim · h2 h3)

theorem source_eq : m₁.mem S = m.mem S := s.mem_eq h (.inr (.inl (.inl rfl)))

theorem kernel_eq : m₁.mem K = m.mem K := s.mem_eq h (.inr (.inr (.inl rfl)))

theorem private_iff (i : ℕ) : Private m₁ S K i ↔ Private m S K i := by
  rw [Private, Private, s.source_eq h, s.kernel_eq h]

theorem pteAt_eq (hi : i < 1024) (hne : m.mem S i ≠ 0) (j : ℕ) :
    pteAt m₁ S i j = pteAt m S i j := by
  rw [pteAt, pteAt, s.source_eq h]
  rw [s.mem_eq h (.inr (.inl (.inr (.inl ⟨i, hi, hne, rfl⟩))))]

theorem uses_source (f : ℕ) : Uses m₁ S f ↔ Uses m S f :=
  uses_congr (s.source_eq h) fun i hi hne =>
    s.mem_eq h (.inr (.inl (.inr (.inl ⟨i, hi, hne, rfl⟩))))

theorem uses_kernel (f : ℕ) : Uses m₁ K f ↔ Uses m K f :=
  uses_congr (s.kernel_eq h) fun i hi hne =>
    s.mem_eq h (.inr (.inr (.inr (.inl ⟨i, hi, hne, rfl⟩))))

theorem rests_iff : Rests m₁ D T K w used f ↔ Rests m D T K w used f := by
  have hD : m₁.mem D = m.mem D := s.mem_eq h (.inl (.inl (.inl rfl)))
  exact rests_congr (by rw [hD]) (by rw [hD])

/-- **What the call needs does not depend on the contents of the free pages.** -/
theorem source : Source m₁ D T K w used free S where
  ground := h.ground.congr s.setup s.loc fun f hf i => by rw [s.mem_eq h (.inl hf)]
  slots := by
    rw [s.mem_eq h (.inl (.inl (.inr (.inl rfl))))]
    exact h.slots
  windows := by
    rw [s.mem_eq h (.inl (.inl (.inl rfl)))]
    exact h.windows
  source_ne := h.source_ne
  present := by
    rw [s.source_eq h]
    exact h.present
  nodup := h.nodup
  aligned := h.aligned
  unused p hp := by
    rw [s.rests_iff h, s.uses_source h, s.uses_kernel h]
    exact h.unused p hp

theorem privatePage_iff (f : ℕ) : PrivatePage m₁ S K f ↔ PrivatePage m S K f := by
  refine exists_congr fun i => and_congr_right fun hi => ?_
  rw [s.private_iff h]
  refine and_congr_right fun hp => ?_
  simp [s.pteAt_eq h hi hp.1]

theorem own (o : Own m D T K w used S) : Own m₁ D T K w used S := by
  refine ⟨o.current, fun f hf => ?_⟩
  have hkept := o.page f ((s.privatePage_iff h f).mp hf)
  simp only [Kept, s.rests_iff h, s.private_iff h, s.source_eq h]
  exact hkept

theorem plain (p : Plain m D K S) : Plain m₁ D K S where
  current := p.current
  empty i hi hp j hj := by
    have hp' := (s.private_iff h i).mp hp
    rw [s.pteAt_eq h hi hp'.1]
    exact p.empty i hi hp' j hj
  self := by
    rw [s.source_eq h, s.kernel_eq h]
    exact p.self

theorem wantedEntries_eq : wantedEntries m₁ S K 1024 0 = wantedEntries m S K 1024 0 :=
  wantedEntries_congr (fun i _ => s.private_iff h i) fun _ hi hp j _ => s.pteAt_eq h hi hp.1 j

end

end SameButFree

/-! ### Plain sources -/

section

variable {m' : Machine} {T w : ℕ} {used all free : List UInt32}
  {notes : List (Role × UInt32)} {c n : UInt32}

theorem frameOf_selfEntry (p : UInt32) : frameOf (selfEntry p) = frameOf p := (entry_table p).2

theorem Source.entry_ne (h : Source m D T K w used all S) {e : UInt32} (hp : p ∈ all)
    (he : frameOf e = frameOf p) (hi : i < 1024) (hne : m.mem S i ≠ 0) : e ≠ m.mem S i := by
  rintro rfl
  exact (h.unused p hp).2.1 (.inr (.inl ⟨i, hi, hne, he.symm⟩))

section

variable (d : Cloned m D T K w used all S m' free notes c n) (h : Source m D T K w used all S)

include d h

theorem Cloned.entry_ne (hi : i < 1024) (hp : Private m S K i) :
    m'.mem (frameOf c) i ≠ m.mem S i := by
  obtain ⟨hc, hn, hnotes⟩ := d.mem_all
  by_cases h958 : i = 958
  · subst h958
    rw [d.selfTable]
    exact h.entry_ne hn (frameOf_selfEntry n) hi hp.1
  by_cases h959 : i = 959
  · subst h959
    rw [d.selfPages]
    exact h.entry_ne hc (frameOf_selfEntry c) hi hp.1
  · obtain ⟨p, hmem⟩ := d.exists_table hi hp
    rw [d.table i p hmem h958 h959]
    exact h.entry_ne (hnotes _ hmem) (entry_userEntry p).2 hi hp.1

/-- **A plain source is cloned as it should be.** -/
theorem Cloned.clones (p : Plain m D K S) : Clones m S K m' (frameOf c) := by
  obtain ⟨hc, hn, hnotes⟩ := d.mem_all
  have hnone : ∀ {P : Prop} {i : ℕ}, i < 1024 → Private m S K i → ∀ {j : ℕ}, j < 1024 →
      pteAt m S i j ≠ 0 → P := fun hi hp _ hj hne => absurd (p.empty _ hi hp _ hj) hne
  refine ⟨?_, ?_, fun i hi hp j hj hne => hnone hi hp hj hne,
    fun i hi hp j hj hne => hnone hi hp hj hne, fun i hi hp j hj hne => hnone hi hp hj hne⟩
  · intro f hf k _
    have hne : ∀ q ∈ all, f ≠ frameOf q := by
      rintro q hq rfl
      exact (h.unused q hq).2.1 (.inr (.inr hf))
    exact d.keeps f (hne c hc) (hne n hn) p.not_privatePage (fun i q hq => hne q (hnotes _ hq)) k
  · intro i hi hne
    by_cases heq : m.mem S i = m.mem K i
    · have hself : ∀ k, k = 958 ∨ k = 959 → i ≠ k := by
        rintro k hk rfl
        exact p.self i hk hne heq
      have hshared := d.shared i hi hne heq (hself 958 (.inl rfl)) (hself 959 (.inr rfl))
      exact ⟨fun _ => heq, fun _ => hshared⟩
    · exact ⟨fun hc => absurd hc (d.entry_ne h hi ⟨hne, heq⟩), fun hc => absurd hc heq⟩

end

theorem faithful_of_plain (h : Source m D T K w used all S) (hsrc : frameOf src.physical = S)
    (hlen : (wantedEntries m S K 1024 0).length + 2 ≤ all.length) (p : Plain m D K S) :
    Faithful m src K all := by
  intro m₁ s
  have h1 := s.source h
  have p1 := s.plain h p
  obtain ⟨c, n, free', notes, m', hrun, d⟩ := h1.cloneDirectory_eq
    ⟨p1.current, fun _ hf => absurd hf p1.not_privatePage⟩ hsrc
    (by rw [s.wantedEntries_eq h]; exact hlen)
  refine ⟨_, m', hrun, ?_⟩
  rw [hsrc]
  exact d.clones h1 p1

/-! ### Sources with pages -/

/-- The machine with the word `v` everywhere in the free pages. -/
def filled (m : Machine) (all : List UInt32) (v : UInt32) : Machine :=
  { m with mem := fun f k => if f ∈ all.map frameOf then v else m.mem f k }

theorem sameButFree_filled (m : Machine) (all : List UInt32) (v : UInt32) :
    SameButFree m (filled m all v) all := by
  refine ⟨sameSetup_mem, rfl, fun f hf => ?_⟩
  funext k
  refine if_neg fun hc => ?_
  obtain ⟨p, hp, heq⟩ := mem_map.mp hc
  exact hf p hp heq.symm

/-- **A page of the source is overwritten** by what the free pages contain. -/
theorem Cloned.word_eq (d : Cloned m D T K w used all S m' free notes c n) {v : UInt32}
    (hv : ∀ p ∈ all, ∀ k, m.mem (frameOf p) k = v) (hi : i < 1024)
    (hp : Private m S K i) (hj : j < 1024) (hpte : pteAt m S i j ≠ 0) :
    m'.mem (frameOf (pteAt m S i j)) 0 = shifted v v := by
  obtain ⟨q, hq⟩ := d.exists_page hi hp hj hpte
  obtain ⟨i', j', q', hq', hvalue⟩ := d.written i j q hq
  have hmem := d.mem_all.2.2 _ hq'
  rw [hvalue, hv q' hmem, hv q' hmem]

section

variable (h : Source m D T K w used all S) (hsrc : frameOf src.physical = S)
  (o : Own m D T K w used S) (hlen : (wantedEntries m S K 1024 0).length + 2 ≤ all.length)

include h hsrc o hlen

theorem not_faithful_of_page (hi : i < 1024) (hp : Private m S K i) (hj : j < 1024)
    (hpte : pteAt m S i j ≠ 0) : ¬Faithful m src K all := by
  intro hfaithful
  -- a word that reads the same three bytes further on, and differs from the page's
  obtain ⟨v, hv, hne⟩ : ∃ v, shifted v v = v ∧ v ≠ m.mem (frameOf (pteAt m S i j)) 0 := by
    by_cases hz : m.mem (frameOf (pteAt m S i j)) 0 = 0
    · rw [hz]
      exact ⟨0xFFFFFFFF, by decide, by decide⟩
    · exact ⟨0, by decide, Ne.symm hz⟩
  have s := sameButFree_filled m all v
  have h1 := s.source h
  obtain ⟨c, n, free', notes, m', hrun, d⟩ := h1.cloneDirectory_eq (s.own h o) hsrc
    (by rw [s.wantedEntries_eq h]; exact hlen)
  obtain ⟨dir, m'', hrun', hclones⟩ := hfaithful _ s
  cases hrun.symm.trans hrun'
  have hp1 := (s.private_iff h i).mpr hp
  have hpte1 := s.pteAt_eq h hi hp.1 j
  have hvalue := d.word_eq (fun p hp k => if_pos (mem_map_of_mem hp)) hi hp1 hj
    (by rw [hpte1]; exact hpte)
  have hkeep := hclones.unchanged (frameOf (pteAt (filled m all v) S i j))
    (by rw [hsrc]; exact ⟨i, hi, hp1.1, j, hj, by rw [hpte1]; exact hpte, rfl⟩) 0 (by omega)
  rw [hvalue, hv, hpte1,
    s.mem_eq h (.inr (.inl (.inr (.inr ⟨i, hi, hp.1, j, hj, hpte, rfl⟩))))] at hkeep
  exact hne hkeep

theorem not_faithful_of_shared (hi : i = 958 ∨ i = 959) (hne : m.mem S i ≠ 0)
    (heq : m.mem S i = m.mem K i) : ¬Faithful m src K all := by
  intro hfaithful
  obtain ⟨c, n, free', notes, m', hrun, d⟩ := h.cloneDirectory_eq o hsrc hlen
  obtain ⟨dir, m'', hrun', hclones⟩ := hfaithful m ⟨.refl m, rfl, fun _ _ => rfl⟩
  cases hrun.symm.trans hrun'
  obtain ⟨hc, hn, -⟩ := d.mem_all
  rw [hsrc] at hclones
  rcases hi with rfl | rfl
  · have hentry := (hclones.shared 958 (by omega) hne).mpr heq
    rw [d.selfTable] at hentry
    exact h.entry_ne hn (frameOf_selfEntry n) (by omega) hne hentry
  · have hentry := (hclones.shared 959 (by omega) hne).mpr heq
    rw [d.selfPages] at hentry
    exact h.entry_ne hc (frameOf_selfEntry c) (by omega) hne hentry

end

end

/-- **Which sources are cloned as they should be**: plain ones. If another one's private pages are
its own, one of them is overwritten, or a page table of the kernel is replaced. -/
theorem faithful_iff_plain {m : Machine} {D T K w : ℕ} {used free : List UInt32}
    {src : PageDirectory} (h : Source m D T K w used free (frameOf src.physical))
    (hlen : (wantedEntries m (frameOf src.physical) K 1024 0).length + 2 ≤ free.length) :
    (Plain m D K (frameOf src.physical) → Faithful m src K free) ∧
    (Own m D T K w used (frameOf src.physical) → Faithful m src K free →
      Plain m D K (frameOf src.physical)) := by
  refine ⟨faithful_of_plain h rfl hlen, fun o hfaithful => ?_⟩
  refine ⟨o.current, fun i hi hp j hj => ?_, fun i hi hne heq => ?_⟩
  · by_contra hpte
    exact not_faithful_of_page h rfl o hlen hi hp hj hpte hfaithful
  · exact not_faithful_of_shared h rfl o hlen hi hne heq hfaithful

/-! ### A sample -/

/-- Five free pages. -/
def clonePool : List UInt32 := [0x30000, 0x31000, 0x32000, 0x33000, 0x34000]

theorem forall_mem_clonePool {P : UInt32 → Prop}
    (h : P 0x30000 ∧ P 0x31000 ∧ P 0x32000 ∧ P 0x33000 ∧ P 0x34000) : ∀ p ∈ clonePool, P p := by
  simpa [clonePool] using h

/-- Five free pages, which start with `stale`, and a directory in frame `32` with one page, in frame
`34`. -/
def cloneMachine (stale : UInt32) : Machine :=
  { sampleMachine with
    mem := fun f i =>
      if f = 20 then clonePool.getD i 0
      else if f = 32 then if i = 0 then 0x21003 else 0
      else if f = 33 then if i = 0 then 0x22007 else 0
      else if f = 34 then 42
      else if 48 ≤ f ∧ f < 53 then if i = 0 then stale else 0
      else sampleMachine.mem f i
    pmmStackLoc := pmmStackStart + 20 }

theorem mem_clonePool (hp : p ∈ clonePool) (k : ℕ) : (cloneMachine 0).mem (frameOf p) k = 0 := by
  have hall : ∀ p ∈ clonePool, 48 ≤ frameOf p ∧ frameOf p < 53 :=
    forall_mem_clonePool (by decide)
  have hf := hall p hp
  simp only [cloneMachine]
  rw [if_neg (by omega), if_neg (by omega), if_neg (by omega), if_neg (by omega), if_pos hf,
    ite_self]

theorem ground_cloneMachine : Ground (cloneMachine 0) 16 18 16 1023 [0x14000] clonePool where
  current :=
    have hself : SelfMapped (cloneMachine 0) 16 :=
      selfMapped_sampleMachine.congr ⟨rfl, rfl, rfl, rfl, rfl⟩ (fun _ _ => rfl) rfl
    hself.current (by decide)
  kernelDirectory := rfl
  kernelWindow := by unfold Entry; decide
  kernelTable := by decide
  kernelMount := by unfold Entry; decide
  table_ne := by decide
  pile :=
    { active := rfl
      max := by decide
      loc := by decide
      room := by decide
      capacity := by decide
      backed := by
        intro k q hq
        obtain ⟨rfl, rfl⟩ : k = 0 ∧ q = 0x14000 := by
          cases k with
          | zero => exact ⟨rfl, by simpa using hq.symm⟩
          | succ k => simp at hq
        unfold Entry
        decide
      content := by
        intro j p hp
        obtain ⟨hj, -⟩ := List.getElem?_eq_some_iff.mp hp
        have hlt : j < 5 := hj
        refine ⟨0x14000, by rw [show j / 1024 = 0 by omega]; rfl, ?_⟩
        rw [show j % 1024 = j by omega]
        show clonePool.getD j 0 = p
        rw [getD_eq_getElem?_getD, hp]
        rfl }
  inj := by
    intro i j q r hi hj _
    obtain ⟨hi, -⟩ := List.getElem?_eq_some_iff.mp hi
    obtain ⟨hj, -⟩ := List.getElem?_eq_some_iff.mp hj
    simp only [length_singleton] at hi hj
    omega
  apart := by
    unfold IsTable
    simp only [forall_mem_singleton]
    decide

/-- The words of the page tables that are not zero. -/
def cloneWords : List (ℕ × ℕ) :=
  [(16, 1021), (16, 1022), (16, 1023), (17, 1023), (18, 1023), (32, 0), (33, 0)]

theorem mem_cloneWords (hf : f ∈ cloneWords.map Prod.fst)
    (h : (cloneMachine 0).mem f i ≠ 0) : (f, i) ∈ cloneWords := by
  simp only [cloneWords, map_cons, map_nil, mem_cons, not_mem_nil, or_false] at hf
  simp only [cloneMachine, sampleMachine] at h
  simp only [cloneWords, mem_cons]
  by_contra hc
  apply h
  rcases hf with rfl | rfl | rfl | rfl | rfl | rfl | rfl <;> simp at hc <;> simp [hc]

theorem not_uses (hE : E ∈ cloneWords.map Prod.fst) (hf : f ≠ E)
    (h : ∀ a ∈ cloneWords, a.1 = E → f ≠ frameOf ((cloneMachine 0).mem E a.2) ∧
      frameOf ((cloneMachine 0).mem E a.2) ∈ cloneWords.map Prod.fst ∧
      ∀ b ∈ cloneWords, b.1 = frameOf ((cloneMachine 0).mem E a.2) →
        f ≠ frameOf ((cloneMachine 0).mem b.1 b.2)) : ¬Uses (cloneMachine 0) E f := by
  rintro (hf' | ⟨i, -, hne, hf'⟩ | ⟨i, -, hne, j, -, hpte, hf'⟩)
  · exact hf hf'
  · exact (h (E, i) (mem_cloneWords hE hne) rfl).1 hf'
  · obtain ⟨-, htable, hpage⟩ := h (E, i) (mem_cloneWords hE hne) rfl
    exact hpage (_, j) (mem_cloneWords htable hpte) rfl hf'

theorem source_cloneMachine (hS : S = 16 ∨ S = 32) :
    Source (cloneMachine 0) 16 18 16 1023 [0x14000] clonePool S where
  ground := ground_cloneMachine
  slots := ⟨0, by decide, 1, by decide, by decide, by decide, by decide⟩
  windows := ⟨0, by decide, 1, by decide, by decide, by decide, by decide⟩
  source_ne := by omega
  present := by
    intro i _ hne
    have hmem := mem_cloneWords (by rcases hS with rfl | rfl <;> decide) hne
    have hall : ∀ a ∈ cloneWords, present ((cloneMachine 0).mem a.1 a.2) = true := by decide
    exact hall (S, i) hmem
  nodup := by decide
  aligned := forall_mem_clonePool (by decide)
  unused := by
    have hrests : ∀ p ∈ clonePool, ¬Rests (cloneMachine 0) 16 18 16 1023 [0x14000] (frameOf p) := by
      unfold Rests IsTable
      exact forall_mem_clonePool (by decide)
    have hkernel : ∀ p ∈ clonePool, ¬Uses (cloneMachine 0) 16 (frameOf p) := fun p hp =>
      not_uses (by decide) (by revert p; exact forall_mem_clonePool (by decide))
        (by revert p; refine forall_mem_clonePool ⟨?_, ?_, ?_, ?_, ?_⟩ <;> decide)
    have hsource : ∀ p ∈ clonePool, ¬Uses (cloneMachine 0) 32 (frameOf p) := fun p hp =>
      not_uses (by decide) (by revert p; exact forall_mem_clonePool (by decide))
        (by revert p; refine forall_mem_clonePool ⟨?_, ?_, ?_, ?_, ?_⟩ <;> decide)
    intro p hp
    rcases hS with rfl | rfl
    · exact ⟨hrests p hp, hkernel p hp, hkernel p hp⟩
    · exact ⟨hrests p hp, hsource p hp, hkernel p hp⟩

/-- The directory in frame `32`. -/
def cloneSource : PageDirectory := userDirectory 0x20000

theorem privatePage_cloneMachine (h : PrivatePage (cloneMachine 0) 32 16 f) : f = 34 := by
  obtain ⟨i, -, hp, j, -, hpte, rfl⟩ := h
  obtain rfl : i = 0 := by
    simpa [cloneWords] using mem_cloneWords (by decide) hp.1
  obtain rfl : j = 0 := by
    simpa [cloneWords] using mem_cloneWords (f := 33) (by decide) hpte
  decide

theorem own_cloneMachine : Own (cloneMachine 0) 16 18 16 1023 [0x14000] 32 where
  current := by decide
  page f hf := by
    obtain rfl := privatePage_cloneMachine hf
    rintro (hr | hr | ⟨i, -, hp, hr⟩)
    · revert hr
      unfold Rests IsTable
      decide
    · omega
    · obtain rfl : i = 0 := by
        simpa [cloneWords] using mem_cloneWords (by decide) hp.1
      revert hr
      decide

/-- The kernel directory is plain, and the directory in frame `32` is not. -/
theorem faithful_kernelDirectory :
    Faithful (cloneMachine 0) (cloneMachine 0).kernelDirectory 16 clonePool ∧
      ¬Faithful (cloneMachine 0) cloneSource 16 clonePool := by
  refine ⟨?_, fun hfaithful => ?_⟩
  · refine (faithful_iff_plain (source_cloneMachine (.inl rfl)) (by decide +kernel)).1
      ⟨fun _ => rfl, ?_, ?_⟩
    · intro i _ hp
      exact absurd rfl hp.2
    · rintro i (rfl | rfl) hne
      · exact absurd (by decide) hne
      · exact absurd (by decide) hne
  · have hsource : Source (cloneMachine 0) 16 18 16 1023 [0x14000] clonePool
        (frameOf cloneSource.physical) := source_cloneMachine (.inr rfl)
    have hplain := (faithful_iff_plain hsource (by decide +kernel)).2 own_cloneMachine hfaithful
    exact absurd (hplain.empty 0 (by decide) ⟨by decide, by decide⟩ 0 (by decide)) (by decide)

/-- **The page of the source is overwritten**: it held `42`, and its first word is zero afterwards.
-/
theorem not_clones_cloneMachine : ∃ dir m',
    cloneDirectory (cloneMachine 0) cloneSource = some (dir, m') ∧ m'.mem 34 0 = 0 ∧
      ¬Clones (cloneMachine 0) 32 16 m' (frameOf dir.physical) := by
  have hsrc : frameOf cloneSource.physical = 32 := rfl
  obtain ⟨c, n, free, notes, m', hrun, d⟩ := (source_cloneMachine (.inr rfl)).cloneDirectory_eq
    own_cloneMachine hsrc (by decide +kernel)
  have hword : m'.mem 34 0 = 0 :=
    d.word_eq (i := 0) (j := 0) (fun _ hp => mem_clonePool hp) (by decide)
      ⟨by decide, by decide⟩ (by decide) (by decide)
  refine ⟨_, m', hrun, hword, fun hclones => ?_⟩
  have hkeep := hclones.unchanged 34
    ⟨0, by decide, by decide, 0, by decide, by decide, by decide⟩ 0 (by decide)
  rw [hword] at hkeep
  exact absurd hkeep (by decide)

end AthenX.Paging
