import AthenX.Paging.CloneRun

/-!
# The clone of a directory

`clone_directory` as a whole. Source and clone are mounted, the loops of `CloneRun` run, and the
clone gets a page table for `USER_DIR_VIRTUAL`. `Source` is what the call needs, two free mount
points and free pages that nobody uses, and `Own` excludes sources whose pages the loops rely on.
`Cloned` says what every frame holds afterwards.
-/

namespace AthenX.Paging

open List Option

/-- A page table of directory `E` lies in frame `f`. -/
def Tabled (m : Machine) (E f : ℕ) : Prop :=
  ∃ i < 1024, m.mem E i ≠ 0 ∧ f = frameOf (m.mem E i)

/-- A page that directory `E` maps lies in frame `f`. -/
def Mapped (m : Machine) (E f : ℕ) : Prop :=
  ∃ i < 1024, m.mem E i ≠ 0 ∧ ∃ j < 1024, pteAt m E i j ≠ 0 ∧ f = frameOf (pteAt m E i j)

/-- Frame `f` is directory `E`, a page table of it or a page that it maps. -/
def Uses (m : Machine) (E f : ℕ) : Prop := f = E ∨ Tabled m E f ∨ Mapped m E f

/-- The directory in frame `S` can be cloned: two mount points are free, and the free pages are not
in use. -/
structure Source (m : Machine) (D T K w : ℕ) (used free : List UInt32) (S : ℕ) : Prop where
  ground : Ground m D T K w used free
  slots : ∃ s < 4, ∃ s' < 4, s ≠ s' ∧ m.mem T (1019 + s) = 0 ∧ m.mem T (1019 + s') = 0
  windows : ∃ t < 8, ∃ t' < 8, t ≠ t' ∧ m.mem D (1012 + t) = 0 ∧ m.mem D (1012 + t') = 0
  source_ne : S ≠ T
  present : ∀ i < 1024, m.mem S i ≠ 0 → present (m.mem S i) = true
  nodup : free.Nodup
  aligned : ∀ p ∈ free, p.toNat % 4096 = 0
  unused : ∀ p ∈ free, ¬Rests m D T K w used (frameOf p) ∧ ¬Uses m S (frameOf p) ∧
    ¬Uses m K (frameOf p)

/-- The loops rely on no private page of the source, which is not current unless it is the kernel's.
-/
structure Own (m : Machine) (D T K w : ℕ) (used : List UInt32) (S : ℕ) : Prop where
  current : S = D → K = D
  page : ∀ f, PrivatePage m S K f → ¬Kept m D T K w used S f

/-- The entry by which the clone maps itself. -/
def selfEntry (p : UInt32) : UInt32 := p ||| pagePresent ||| pageWrite

/-- After `clone_directory`, with the pages `all` on the stack: the clone at `c`, its own page table
at `n`, and the pages taken in `notes`. -/
structure Cloned (m : Machine) (D T K w : ℕ) (used all : List UInt32) (S : ℕ) (m' : Machine)
    (free : List UInt32) (notes : List (Role × UInt32)) (c n : UInt32) : Prop where
  total : all = free ++ n :: notes.map Prod.snd ++ [c]
  ground : Ground m' D T K w used free
  setup : SameSetup m m'
  order : notes.map Prod.fst = (wantedEntries m S K 1024 0).reverse
  once : (wantedEntries m S K 1024 0).Nodup
  keeps : ∀ f, f ≠ frameOf c → f ≠ frameOf n → ¬PrivatePage m S K f →
    (∀ i p, (Role.table i, p) ∈ notes → f ≠ frameOf p) → ∀ k, m'.mem f k = m.mem f k
  table : ∀ i p, (Role.table i, p) ∈ notes → i ≠ 958 → i ≠ 959 →
    m'.mem (frameOf c) i = userEntry p
  shared : ∀ i < 1024, m.mem S i ≠ 0 → m.mem S i = m.mem K i → i ≠ 958 → i ≠ 959 →
    m'.mem (frameOf c) i = m.mem S i
  blank : ∀ i < 958, m.mem S i = 0 → m'.mem (frameOf c) i = 0
  page : ∀ i p, (Role.table i, p) ∈ notes → ∀ j q, (Role.page i j, q) ∈ notes →
    m'.mem (frameOf p) j = userEntry q ||| (pageFlagsMask &&& pteAt m S i j)
  empty : ∀ i p, (Role.table i, p) ∈ notes → ∀ j < 1024, (∀ q, (Role.page i j, q) ∉ notes) →
    m'.mem (frameOf p) j = 0
  written : ∀ i j q, (Role.page i j, q) ∈ notes → ∃ i' j' q', (Role.page i' j', q') ∈ notes ∧
    m'.mem (frameOf (pteAt m S i j)) 0 = shifted (m.mem (frameOf q') 1) (m.mem (frameOf q') 2)
  selfTable : m'.mem (frameOf c) 958 = selfEntry n
  selfPages : m'.mem (frameOf c) 959 = selfEntry c
  selfWord : m'.mem (frameOf n) 1023 = selfEntry c
  stale : ∀ k, k ≠ 1023 → m'.mem (frameOf n) k = m.mem (frameOf n) k

/-- The words that the two mounts occupy. -/
def Site.MountWord (x : Site) (f i : ℕ) : Prop :=
  f = x.T ∧ (i = 1019 + x.s ∨ i = 1019 + x.s') ∨ f = x.D ∧ (i = 1012 + x.t ∨ i = 1012 + x.t')

abbrev Site.Source (x : Site) (m : Machine) (free : List UInt32) : Prop :=
  Paging.Source m x.D x.T x.K x.w x.used free x.S

abbrev Site.Own (x : Site) (m : Machine) : Prop := Paging.Own m x.D x.T x.K x.w x.used x.S

/-- When the loops start: the clone was taken and cleared, and both directories are mounted. -/
structure Begun (m : Machine) (free : List UInt32) (r : Machine) (x : Site) : Prop
    extends x.Mounts r where
  ground : Ground r x.D x.T x.K x.w x.used free
  setup : SameSetup m r
  blank : ∀ f i, x.MountWord f i → m.mem f i = 0
  other : ∀ f i, f ≠ x.C → ¬x.MountWord f i → r.mem f i = m.mem f i
  clear : ∀ i < 1024, r.mem x.C i = 0

/-! ### The two mounts -/

variable {m r : Machine} {D K S T f i j s w : ℕ} {free used : List UInt32} {src : PageDirectory}
  {p : UInt32}

theorem rests_congr {m' : Machine} (hw : m'.mem D (w - 1) = m.mem D (w - 1))
    (h1022 : m'.mem D 1022 = m.mem D 1022) : Rests m' D T K w used f ↔ Rests m D T K w used f := by
  rw [Rests, IsTable, hw, h1022, Rests, IsTable]

theorem rests_mounted {t : ℕ} (h : Current m D T w) (ht : t < 8) (dir : PageDirectory) :
    Rests (mounted m D T s t dir) D T K w used f ↔ Rests m D T K w used f := by
  have hw := h.window
  have hword : ∀ i, i = w - 1 ∨ i = 1022 → (mounted m D T s t dir).mem D i = m.mem D i := by
    intro i hi
    exact mounted_other dir (fun hc => h.slots_ne hc.1.symm) (by omega)
  exact rests_congr (hword _ (.inl rfl)) (hword _ (.inr rfl))

/-- **`memset(dest.directory, 0, PAGE_SIZE)`**, for a directory mounted in slot `s`. -/
theorem Ground.memsetPage (h : Ground m D T K w used free) (hs : s < 4)
    (hslot : Entry (m.mem T (1019 + s)) f) (hf : ¬Rests m D T K w used f) :
    m.memsetPage (slotAddr s) = some (m.pokes f (fun _ => 0) 1024) ∧
      Ground (m.pokes f (fun _ => 0) 1024) D T K w used free := by
  have hother : ∀ k g, g ≠ f → ∀ i, (m.pokes f (fun _ => 0) k).mem g i = m.mem g i := by
    intro k g hg i
    simp only [Machine.pokes]
    rw [if_neg fun hc => hg hc.1]
  have hground : ∀ k, Ground (m.pokes f (fun _ => 0) k) D T K w used free := by
    intro k
    refine h.congr sameSetup_mem rfl fun g hg => hother k g ?_
    rintro rfl
    exact hf hg
  refine ⟨?_, hground 1024⟩
  apply Machine.fill_eq
  intro k hk
  have hT : T ≠ f := by
    rintro rfl
    exact hf (.inl (.inr (.inl rfl)))
  have hofNat : (UInt32.ofNat k).toNat = k := by
    rw [UInt32.toNat_ofNat']
    omega
  have htr := (hground k).current.translate_slotAddr hs
    (by rw [hother k T hT]; exact hslot) (i := UInt32.ofNat k) (by omega)
  rw [hofNat] at htr
  exact htr

section

variable {r : Machine} {S : ℕ} {c : UInt32}

theorem exists_left {P : ℕ → Prop} {k : ℕ} (h : ∃ s < k, ∃ s' < k, s ≠ s' ∧ P s ∧ P s') (j : ℕ) :
    ∃ s < k, s ≠ j ∧ P s := by
  obtain ⟨s, hs, s', hs', hne, hP, hP'⟩ := h
  by_cases hj : s = j
  · exact ⟨s', hs', fun hc => hne (hj.trans hc.symm), hP'⟩
  · exact ⟨s, hs, hj, hP⟩

/-- **Two directories are mounted** in different free slots and windows. -/
theorem mountDirectory_twice (h : Current m D T w)
    (hslots : ∃ s < 4, ∃ s' < 4, s ≠ s' ∧ m.mem T (1019 + s) = 0 ∧ m.mem T (1019 + s') = 0)
    (hwindows : ∃ t < 8, ∃ t' < 8, t ≠ t' ∧ m.mem D (1012 + t) = 0 ∧ m.mem D (1012 + t') = 0)
    (src dest : PageDirectory) : ∃ s < 4, ∃ t < 8, ∃ s' < 4, ∃ t' < 8, s ≠ s' ∧ t ≠ t' ∧
      (m.mem T (1019 + s) = 0 ∧ m.mem T (1019 + s') = 0) ∧
      (m.mem D (1012 + t) = 0 ∧ m.mem D (1012 + t') = 0) ∧
      mountDirectory m src = some (mountAt s t, mounted m D T s t src) ∧
      mountDirectory (mounted m D T s t src) dest =
        some (mountAt s' t', mounted (mounted m D T s t src) D T s' t' dest) := by
  have hTD := h.slots_ne
  obtain ⟨s1, hs1, -, hblank⟩ := exists_left hslots 4
  obtain ⟨t1, ht1, -, hblank'⟩ := exists_left hwindows 8
  obtain ⟨s, hs, t, ht, hslot, hwindow, hmount⟩ :=
    mountDirectory_eq h ⟨s1, hs1, hblank⟩ ⟨t1, ht1, hblank'⟩ src
  obtain ⟨s2, hs2, hne2, hblank2⟩ := exists_left hslots s
  obtain ⟨t2, ht2, hne2', hblank2'⟩ := exists_left hwindows t
  obtain ⟨s', hs', t', ht', hslot', hwindow', hmount'⟩ :=
    mountDirectory_eq (h.mounted hs ht src)
      ⟨s2, hs2, by rw [mounted_slot hTD, if_neg hne2, hblank2]⟩
      ⟨t2, ht2, by rw [mounted_window hTD, if_neg hne2', hblank2']⟩ dest
  have hne : s' ≠ s := by
    rintro rfl
    rw [mounted_slot hTD, if_pos rfl] at hslot'
    exact ne_zero_of_present (entry_pteOf src.physical (by decide)).1 hslot'
  have hne' : t' ≠ t := by
    rintro rfl
    rw [mounted_window hTD, if_pos rfl] at hwindow'
    exact ne_zero_of_present (entry_table src.physical).1 hwindow'
  rw [mounted_slot hTD, if_neg hne] at hslot'
  rw [mounted_window hTD, if_neg hne'] at hwindow'
  exact ⟨s, hs, t, ht, s', hs', t', ht', hne.symm, hne'.symm, ⟨hslot, hslot'⟩,
    ⟨hwindow, hwindow'⟩, hmount, hmount'⟩

/-- **The beginning of `clone_directory`**, up to the loops. -/
theorem Source.begin (h : Source m D T K w used (free ++ [c]) S)
    (hsrc : frameOf src.physical = S) (a b : UInt32) :
    ∃ s t s' t' m1 m2 m3 r, pmmAllocPage m = some (c, m1) ∧
      mountDirectory m1 src = some (mountAt s t, m2) ∧
      mountDirectory m2 ⟨c, a, b⟩ = some (mountAt s' t', m3) ∧
      m3.memsetPage (mountAt s' t').directory = some r ∧
      Begun m free r ⟨D, T, K, w, used, S, frameOf c, s, t, s', t'⟩ := by
  have hTD := h.ground.current.slots_ne
  obtain ⟨hpop, hground1⟩ := h.ground.pop
  have hc : ¬Rests m D T K w used (frameOf c) := (h.unused c (by simp)).1
  set m1 : Machine := m.popped with hm1
  obtain ⟨s, hs, t, ht, s', hs', t', ht', hne, hne', hslots, hwindows, hmount, hmount'⟩ :=
    mountDirectory_twice hground1.current h.slots h.windows src ⟨c, a, b⟩
  have hground2 := hground1.mounted hs ht src
  have hground3 := hground2.mounted hs' ht' ⟨c, a, b⟩
  set m2 := mounted m1 D T s t src with hm2
  set m3 := mounted m2 D T s' t' ⟨c, a, b⟩ with hm3
  -- the page of the clone is cleared
  have hrests : ¬Rests m3 D T K w used (frameOf c) := by
    rw [hm3, rests_mounted hground2.current ht', hm2, rests_mounted hground1.current ht]
    exact hc
  have hentry : Entry (m3.mem T (1019 + s')) (frameOf c) := by
    rw [hm3, mounted_slot hTD, if_pos rfl]
    exact entry_pteOf c (by decide)
  obtain ⟨hclear, hground⟩ := hground3.memsetPage hs' hentry hrests
  have hmem : ∀ f, f ≠ frameOf c → ∀ i,
      (m3.pokes (frameOf c) (fun _ => 0) 1024).mem f i = m3.mem f i := by
    intro f hf i
    simp only [Machine.pokes]
    rw [if_neg fun hc => hf hc.1]
  have hD : D ≠ frameOf c := fun hD => hc (.inl (.inl hD.symm))
  have hT : T ≠ frameOf c := fun hT => hc (.inl (.inr (.inl hT.symm)))
  refine ⟨s, t, s', t', m1, m2, m3, _, hpop, hmount, hmount', hclear, ?_⟩
  constructor
  case ground => exact hground
  case setup => exact sameSetup_mem
  case toMounts =>
    refine ⟨⟨hs, hs'⟩, ⟨ht, ht'⟩, ?_, ?_, ?_, ?_⟩ <;> dsimp only
    · rw [hmem T hT, hm3, mounted_slot hTD, if_neg hne, hm2, mounted_slot hTD, if_pos rfl, ← hsrc]
      exact entry_pteOf src.physical (by decide)
    · rw [hmem D hD, hm3, mounted_window hTD, if_neg hne', hm2, mounted_window hTD, if_pos rfl,
        ← hsrc]
      exact entry_table src.physical
    · rw [hmem T hT]
      exact hentry
    · rw [hmem D hD, hm3, mounted_window hTD, if_pos rfl]
      exact entry_table c
  case blank =>
    rintro f i (⟨rfl, rfl | rfl⟩ | ⟨rfl, rfl | rfl⟩)
    · exact hslots.1
    · exact hslots.2
    · exact hwindows.1
    · exact hwindows.2
  case other =>
    intro f i hf hword
    rw [hmem f hf, hm3, mounted_other, hm2, mounted_other]
    · rintro ⟨rfl, rfl⟩
      exact hword (.inl ⟨rfl, .inl rfl⟩)
    · rintro ⟨rfl, rfl⟩
      exact hword (.inr ⟨rfl, .inl rfl⟩)
    · rintro ⟨rfl, rfl⟩
      exact hword (.inl ⟨rfl, .inr rfl⟩)
    · rintro ⟨rfl, rfl⟩
      exact hword (.inr ⟨rfl, .inr rfl⟩)
  case clear =>
    intro i hi
    simp only [Machine.pokes]
    rw [if_pos ⟨trivial, hi⟩]

end

/-! ### The loops can start -/

theorem wantedEntries_congr (hpriv : ∀ i < 1024, (Private r S K i ↔ Private m S K i))
    (hpte : ∀ i < 1024, Private m S K i → ∀ j < 1024, pteAt r S i j = pteAt m S i j) :
    wantedEntries r S K 1024 0 = wantedEntries m S K 1024 0 := by
  rw [wantedEntries_eq, wantedEntries_eq]
  refine flatMap_congr fun i hi => ?_
  have hi : i < 1024 := by simpa using hi
  rw [wanted, wanted, wantedPages_eq, wantedPages_eq]
  by_cases hp : Private m S K i
  · rw [if_pos hp, if_pos ((hpriv i hi).mpr hp), flatMap_congr]
    intro j hj
    rw [hpte i hi hp j (by simpa using hj)]
  · rw [if_neg hp, if_neg fun hc => hp ((hpriv i hi).mp hc)]

namespace Begun

variable {x : Site} {c : UInt32}

section

variable (h : x.Source m (free ++ [c]))

include h

theorem clone_unused (hC : x.C = frameOf c) :
    ¬Rests m x.D x.T x.K x.w x.used x.C ∧ ¬Uses m x.S x.C ∧ ¬Uses m x.K x.C := by
  rw [hC]
  exact h.unused c (by simp)

theorem word_ne_zero :
    (∃ q ∈ x.used, Entry (m.mem x.T 1023) (frameOf q)) ∧ Entry (m.mem x.D 1023) x.K := by
  refine ⟨?_, h.ground.kernelWindow⟩
  have hroom := h.ground.pile.room
  rw [length_append, length_singleton] at hroom
  obtain ⟨q, hq⟩ : ∃ q, x.used[0]? = some q := ⟨_, List.getElem?_eq_getElem (by omega)⟩
  have he := h.ground.pile.backed 0 q hq
  rw [pte, show (1046527 + 0) / 1024 = 1021 by decide,
    if_neg (ne_zero_of_present h.ground.current.slots.1), h.ground.current.slots.2] at he
  exact ⟨q, mem_of_getElem? hq, he⟩

theorem table_ne (o : x.Own m) (hC : x.C = frameOf c) (hi : i < 1024)
    (hp : Private m x.S x.K i) : frameOf (m.mem x.S i) ≠ x.T ∧ frameOf (m.mem x.S i) ≠ x.D ∧
      frameOf (m.mem x.S i) ≠ x.C := by
  obtain ⟨⟨q, hq, hslot⟩, hwindow⟩ := word_ne_zero h
  have hpage : ∀ f, Entry (pteAt m x.S i 1023) f → ¬Rests m x.D x.T x.K x.w x.used f :=
    fun f he hr => o.page f ⟨i, hi, hp, 1023, by omega, ne_zero_of_present he.1, he.2.symm⟩
      (.inl hr)
  refine ⟨fun hf => ?_, fun hf => ?_, fun hf => ?_⟩
  · rw [← hf] at hslot
    exact hpage _ hslot (.inr ⟨q, hq, rfl⟩)
  · rw [← hf] at hwindow
    exact hpage _ hwindow (.inl (.inr (.inr (.inl rfl))))
  · exact (clone_unused h hC).2.1 (.inr (.inl ⟨i, hi, hp.1, hf.symm⟩))

end

theorem not_private_self : ¬Private m S S i := fun hp => hp.2 rfl

theorem source_ne_clone (h : x.Source m (free ++ [c]))
    (hC : x.C = frameOf c) : x.S ≠ x.C := fun hc => (clone_unused h hC).2.1 (.inl hc.symm)

section

variable (b : Begun m free r x) (h : x.Source m (free ++ [c]))

include b h

theorem mem_source (hC : x.C = frameOf c) (hne : x.S ≠ x.D) (i : ℕ) :
    r.mem x.S i = m.mem x.S i := by
  refine b.other _ i (source_ne_clone h hC) ?_
  rintro (⟨hS, -⟩ | ⟨hS, -⟩)
  · exact h.source_ne hS
  · exact hne hS

section

variable (o : x.Own m) (hC : x.C = frameOf c)

include o hC

/-- **The mounts make no page table private**, nor take one away. -/
theorem private_iff (hi : i < 1024) : Private r x.S x.K i ↔ Private m x.S x.K i := by
  obtain ⟨hrests, hS, hK⟩ := clone_unused h hC
  by_cases hD : x.S = x.D
  · rw [o.current hD, ← hD]
    exact ⟨fun hp => absurd hp not_private_self, fun hp => absurd hp not_private_self⟩
  · have hsource := b.mem_source h hC hD i
    obtain ⟨K', -, hK', hTK', -⟩ := h.ground.current.kernel
    obtain rfl : K' = x.K := hK'.2.symm.trans h.ground.kernelWindow.2
    by_cases hword : x.MountWord x.K i
    · -- the kernel directory is current, and one of the mounts is entered here
      have hzero := b.blank _ _ hword
      have hentry : Entry (r.mem x.K i) x.S ∨ Entry (r.mem x.K i) x.C := by
        obtain ⟨hKD, hi⟩ := hword.resolve_left fun hc => hTK' hc.1.symm
        rw [hKD]
        rcases hi with rfl | rfl
        · exact .inl b.srcWindow
        · exact .inr b.destWindow
      have hdiff : Private m x.S x.K i → m.mem x.S i ≠ r.mem x.K i := by
        intro hp heq
        rw [← heq] at hentry
        rcases hentry with he | he
        · -- then the source would be a page of its own
          have hpte : pteAt m x.S i i = m.mem x.S i := by rw [pteAt, he.2]
          refine o.page x.S ⟨i, hi, hp, i, hi, ?_, ?_⟩ (.inr (.inl rfl))
          · rw [hpte]
            exact hp.1
          · rw [hpte, he.2]
        · exact (table_ne h o hC hi hp).2.2 he.2
      refine ⟨fun hp => ?_, fun hp => ?_⟩
      · rw [Private, hsource] at hp
        exact ⟨hp.1, by rw [hzero]; exact hp.1⟩
      · rw [Private, hsource]
        exact ⟨hp.1, hdiff hp⟩
    · rw [Private, Private, hsource, b.other _ _ (fun hc => hK (.inl hc.symm)) hword]

theorem pteAt_eq (hi : i < 1024) (hp : Private m x.S x.K i) (j : ℕ) :
    pteAt r x.S i j = pteAt m x.S i j := by
  have hD : x.S ≠ x.D := by
    intro hD
    rw [o.current hD, ← hD] at hp
    exact not_private_self hp
  obtain ⟨hT, hD', hC'⟩ := table_ne h o hC hi hp
  rw [pteAt, pteAt, b.mem_source h hC hD, b.other _ _ hC']
  rintro (⟨hf, -⟩ | ⟨hf, -⟩)
  · exact hT hf
  · exact hD' hf

theorem privatePage_iff (f : ℕ) : PrivatePage r x.S x.K f ↔ PrivatePage m x.S x.K f := by
  constructor
  · rintro ⟨i, hi, hp, j, hj, hpte⟩
    have hp' := (b.private_iff h o hC hi).mp hp
    rw [b.pteAt_eq h o hC hi hp'] at hpte
    exact ⟨i, hi, hp', j, hj, hpte⟩
  · rintro ⟨i, hi, hp, j, hj, hpte⟩
    rw [← b.pteAt_eq h o hC hi hp] at hpte
    exact ⟨i, hi, (b.private_iff h o hC hi).mpr hp, j, hj, hpte⟩

end

theorem rests_iff (hC : x.C = frameOf c) :
    Rests r x.D x.T x.K x.w x.used f ↔ Rests m x.D x.T x.K x.w x.used f := by
  have hw := h.ground.current.window
  have hDC : x.D ≠ x.C := fun hc => (clone_unused h hC).1 (.inl (.inl hc.symm))
  have hword : ∀ i, i = x.w - 1 ∨ i = 1022 → r.mem x.D i = m.mem x.D i := by
    intro i hi
    refine b.other _ _ hDC ?_
    rintro (⟨hf, -⟩ | ⟨-, ht⟩)
    · exact h.ground.current.slots_ne hf.symm
    · have := b.window_lt
      omega
  exact rests_congr (hword _ (.inl rfl)) (hword _ (.inr rfl))

theorem kept_iff (o : x.Own m) (hC : x.C = frameOf c) (f : ℕ) : x.Kept r f ↔ x.Kept m f := by
  refine or_congr (b.rests_iff h hC) (or_congr Iff.rfl ?_)
  refine exists_congr fun i => and_congr_right fun hi => ?_
  rw [b.private_iff h o hC hi]
  refine and_congr_right fun hp => ?_
  have hD : x.S ≠ x.D := by
    intro hD
    rw [o.current hD, ← hD] at hp
    exact not_private_self hp
  rw [b.mem_source h hC hD]

end

theorem not_kept (h : x.Source m free) (hp : p ∈ free) : ¬x.Kept m (frameOf p) := by
  obtain ⟨hrests, hS, -⟩ := h.unused p hp
  rintro (hf | hf | ⟨i, hi, hpriv, hf⟩)
  · exact hrests hf
  · exact hS (.inl hf)
  · exact hS (.inr (.inl ⟨i, hi, hpriv.1, hf⟩))

theorem not_privatePage (h : x.Source m free)
    (hp : p ∈ free) : ¬PrivatePage m x.S x.K (frameOf p) := by
  rintro ⟨i, hi, hpriv, j, hj, hpte⟩
  exact (h.unused p hp).2.1 (.inr (.inr ⟨i, hi, hpriv.1, j, hj, hpte⟩))

section

variable (b : Begun m free r x) (h : x.Source m (free ++ [c])) (o : x.Own m) (hC : x.C = frameOf c)

include b h o hC

/-- **The stage is set** for the loops. -/
theorem stage : Stage r x where
  toMounts := b.toMounts
  ground := ⟨free, b.ground⟩
  clone := by
    rw [b.kept_iff h o hC, hC]
    exact not_kept h (by simp)
  present i hi hne := by
    by_cases hword : x.MountWord x.S i
    · obtain ⟨hD, hi⟩ := hword.resolve_left fun hc => h.source_ne hc.1
      rw [hD]
      rcases hi with rfl | rfl
      · exact b.srcWindow.1
      · exact b.destWindow.1
    · rw [b.other _ _ (source_ne_clone h hC) hword] at hne ⊢
      exact h.present i hi hne
  page f hf := by
    rw [b.privatePage_iff h o hC] at hf
    refine ⟨?_, ?_⟩
    · rw [b.kept_iff h o hC]
      exact o.page f hf
    · rintro rfl
      rw [hC] at hf
      exact not_privatePage h (by simp) hf

theorem unclaimed : Unclaimed r x free := by
  have hmem : ∀ p ∈ free, p ∈ free ++ [c] := fun p hp => mem_append_left _ hp
  refine ⟨(nodup_append.mp h.nodup).1, fun p hp => h.aligned p (hmem p hp), ?_, ?_, ?_⟩
  · intro p hp
    rw [b.kept_iff h o hC]
    exact not_kept h (hmem p hp)
  · intro p hp hf
    rw [hC] at hf
    have heq := eq_of_frameOf_eq (h.aligned p (hmem p hp)) (h.aligned c (by simp)) hf
    exact (nodup_append.mp h.nodup).2.2 p hp c (by simp) heq
  · intro p hp
    rw [b.privatePage_iff h o hC]
    exact not_privatePage h (hmem p hp)

end

theorem start (b : Begun m free r x) : Cloning r x free r free [] [] 0 where
  ground := b.ground
  setup := .refl r
  total := by simp
  order := rfl
  once := nodup_nil
  keeps _ _ _ _ _ := rfl
  table _ _ hp := by cases hp
  shared i hi _ := by
    rw [b.clear i hi, if_neg]
    rintro ⟨hlt, -⟩
    omega
  page _ _ hp := by cases hp
  empty _ _ hp := by cases hp
  written _ _ _ hp := by cases hp

/-- **The loops run** when there is a page for every role. -/
theorem loops (b : Begun m free r x) (h : x.Source m (free ++ [c]))
    (o : x.Own m) (hC : x.C = frameOf c)
    (hlen : (wantedEntries m x.S x.K 1024 0).length ≤ free.length) :
    ∃ m' free' notes, cloneEntries x.src x.dest 1024 0 r = some m' ∧
      Cloning r x free m' free' notes (wantedEntries m x.S x.K 1024 0) 1024 := by
  have hwanted : wantedEntries r x.S x.K 1024 0 = wantedEntries m x.S x.K 1024 0 :=
    wantedEntries_congr (fun _ hi => b.private_iff h o hC hi)
      fun _ hi hp j _ => b.pteAt_eq h o hC hi hp j
  rw [← hwanted] at hlen ⊢
  obtain ⟨m', free', notes, hrun, c'⟩ := Cloning.entries (b.stage h o hC) (b.unclaimed h o hC)
    1024 b.start (by simp) (le_refl _) (i := 0) rfl (by simpa using hlen)
  rw [nil_append] at c'
  exact ⟨m', free', notes, hrun, c'⟩

end Begun

/-! ### The end -/

/-- The machine after the clone was entered in itself and both were unmounted. -/
def concluded (m : Machine) (x : Site) (c n : UInt32) : Machine :=
  unmounted (unmounted (((m.poke x.C 958 (selfEntry n)).poke (frameOf n) 1023 (selfEntry c)).poke
    x.C 959 (selfEntry c)) x.D x.T x.s x.t) x.D x.T x.s' x.t'

section

variable {x : Site} {free0 : List UInt32} {notes : List (Role × UInt32)}
  {roles : List Role} {k : ℕ} {c n : UInt32}

theorem concluded_of_mountWord (hw : x.MountWord f i) : (concluded m x c n).mem f i = 0 := by
  rw [concluded, unmounted_mem, unmounted_mem]
  rcases hw with ⟨rfl, rfl | rfl⟩ | ⟨rfl, rfl | rfl⟩
  · simp
  · rw [if_pos (.inl ⟨rfl, rfl⟩)]
  · simp
  · rw [if_pos (.inr ⟨rfl, rfl⟩)]

theorem concluded_of_not_mountWord (hw : ¬x.MountWord f i) :
    (concluded m x c n).mem f i =
      if f = x.C ∧ i = 959 then selfEntry c
      else if f = frameOf n ∧ i = 1023 then selfEntry c
      else if f = x.C ∧ i = 958 then selfEntry n
      else m.mem f i := by
  rw [concluded, unmounted_mem, if_neg, unmounted_mem, if_neg, Machine.poke_mem,
    Machine.poke_mem, Machine.poke_mem]
  · rintro (⟨hf, hi⟩ | ⟨hf, hi⟩)
    · exact hw (.inl ⟨hf, .inl hi⟩)
    · exact hw (.inr ⟨hf, .inl hi⟩)
  · rintro (⟨hf, hi⟩ | ⟨hf, hi⟩)
    · exact hw (.inl ⟨hf, .inr hi⟩)
    · exact hw (.inr ⟨hf, .inr hi⟩)

/-- **The end of `clone_directory`**, after the loops. -/
theorem Cloning.conclude (l : Cloning r x free0 m (free ++ [n]) notes roles k) (g : Stage r x)
    (u : Unclaimed r x free0) :
    ((pmmAllocPage m).bind fun a =>
      (a.2.store (x.dest.directory + 4 * pgdirIdxFromAddr userDirVirtual)
        (selfEntry a.1)).bind fun m =>
      (m.store (x.dest.pages + 4 * pgNumFromAddr userDirVirtual) (selfEntry c)).bind fun m =>
      (m.store (x.dest.directory + 4 * pgdirIdxFromAddr userTablesVirtual)
        (selfEntry c)).bind fun m =>
      (umountDirectory m x.src).bind fun m =>
      umountDirectory m x.dest) = some (concluded m.popped x c n) := by
  obtain ⟨hn, -, -⟩ := l.top u
  obtain ⟨hpop, -⟩ := l.ground.pop
  have hint : Intact r m.popped x := (l.intact g u).congr sameSetup_mem fun _ _ _ => rfl
  generalize m.popped = m1 at hpop hint
  have hn' := u.kept n hn
  have hint1 := hint.poke g.clone 958 (selfEntry n)
  have hint2 := hint1.poke hn' 1023 (selfEntry c)
  have hint3 := hint2.poke g.clone 959 (selfEntry c)
  have hcur := g.current hint3
  have hstore : m1.store (x.dest.directory + 4 * pgdirIdxFromAddr userDirVirtual)
      (selfEntry n) = some (m1.poke x.C 958 (selfEntry n)) := by
    rw [Machine.store, g.destDirectory hint (by decide), map_some]
    rfl
  have hentry : Entry ((m1.poke x.C 958 (selfEntry n)).mem x.C 958) (frameOf n) := by
    rw [Machine.poke_mem, if_pos ⟨rfl, rfl⟩]
    exact entry_table n
  have hself := g.destPages (i := 958) (j := 1023) hint1 (k := pgNumFromAddr userDirVirtual)
    (by omega) (by omega) (by decide) hentry
  have hpages := g.destDirectory hint2 (i := pgdirIdxFromAddr userTablesVirtual) (by decide)
  rw [hpop, bind_some, hstore, bind_some, Machine.store, hself, map_some,
    bind_some, Machine.store, hpages, map_some, bind_some]
  show (umountDirectory (((m1.poke x.C 958 (selfEntry n)).poke (frameOf n) 1023
    (selfEntry c)).poke x.C 959 (selfEntry c)) x.src).bind _ = _
  rw [umountDirectory_eq hcur g.slot_lt.1 g.window_lt.1, bind_some,
    umountDirectory_eq (hcur.unmounted g.slot_lt.1 g.window_lt.1) g.slot_lt.2 g.window_lt.2]
  rfl

theorem not_mountWord (hf : ¬x.Kept r f) (i : ℕ) : ¬x.MountWord f i := by
  rintro (⟨rfl, -⟩ | ⟨rfl, -⟩)
  · exact hf (.inl (.inl (.inr (.inl rfl))))
  · exact hf (.inl (.inl (.inl rfl)))

theorem Cloning.ground_concluded (l : Cloning r x free0 m (free ++ [n]) notes roles k)
    (g : Stage r x) (u : Unclaimed r x free0) (c : UInt32) :
    Ground (concluded m.popped x c n) x.D x.T x.K x.w x.used free := by
  obtain ⟨hn, -, -⟩ := l.top u
  refine Ground.unmounted (Ground.unmounted ?_ g.slot_lt.1 g.window_lt.1) g.slot_lt.2 g.window_lt.2
  refine l.ground_congr g u ?_ l.ground.pop.2 sameSetup_mem rfl ?_
  · rfl
  intro f hf i
  have hfC : f ≠ x.C := by
    rintro rfl
    exact g.clone hf
  have hfn : f ≠ frameOf n := by
    rintro rfl
    exact u.kept n hn hf
  rw [Machine.poke_mem, if_neg fun hc => hfC hc.1, Machine.poke_mem, if_neg fun hc => hfn hc.1,
    Machine.poke_mem, if_neg fun hc => hfC hc.1]

theorem table_of_wanted (h : Role.table i ∈ wantedEntries m S K 1024 0) :
    i < 1024 ∧ Private m S K i := by
  obtain ⟨j, -, hj, hmem⟩ := mem_wantedEntries.mp h
  obtain ⟨hp, heq | ⟨k, -, -, heq⟩⟩ := mem_wanted.mp hmem
  · obtain rfl := Role.table.inj heq
    exact ⟨by omega, hp⟩
  · cases heq

theorem page_of_wanted (h : Role.page i j ∈ wantedEntries m S K 1024 0) :
    i < 1024 ∧ j < 1024 ∧ Private m S K i ∧ pteAt m S i j ≠ 0 := by
  obtain ⟨i', -, hi', hmem⟩ := mem_wantedEntries.mp h
  obtain ⟨hp, heq | ⟨k, hk, hpte, heq⟩⟩ := mem_wanted.mp hmem
  · cases heq
  · obtain ⟨rfl, rfl⟩ := Role.page.inj heq
    exact ⟨by omega, hk, hp, hpte⟩

/-- **The state after `clone_directory`**, from the state after the loops. -/
theorem Begun.cloned {m0 : Machine} (b : Begun m0 free0 r x) (h : x.Source m0 (free0 ++ [c]))
    (o : x.Own m0) (hC : x.C = frameOf c)
    (l : Cloning r x free0 m (free ++ [n]) notes (wantedEntries m0 x.S x.K 1024 0) 1024) :
    Cloned m0 x.D x.T x.K x.w x.used (free0 ++ [c]) x.S
      (concluded m.popped x c n) free notes c n := by
  have g := b.stage h o hC
  have u := b.unclaimed h o hC
  obtain ⟨hn, hfresh, htotal⟩ := l.top u
  have hCn : x.C ≠ frameOf n := (u.clone n hn).symm
  have hground := l.ground_concluded g u c
  have hsetup : SameSetup m (concluded m.popped x c n) := sameSetup_mem
  have hzero : ∀ f i, x.MountWord f i → (concluded m.popped x c n).mem f i = 0 :=
    fun f i hw => concluded_of_mountWord hw
  have hword : ∀ f i, ¬x.MountWord f i →
      (concluded m.popped x c n).mem f i = if f = x.C ∧ i = 959 then selfEntry c
        else if f = frameOf n ∧ i = 1023 then selfEntry c
        else if f = x.C ∧ i = 958 then selfEntry n
        else m.mem f i :=
    fun f i hw => concluded_of_not_mountWord hw
  generalize concluded m.popped x c n = y
    at hground hsetup hzero hword
  have hmem := fun f (hf : ¬x.Kept r f) i =>
    hword f i (not_mountWord hf i)
  have hclone : ∀ i, i ≠ 958 → i ≠ 959 → y.mem x.C i = m.mem x.C i := by
    intro i h958 h959
    rw [hmem _ g.clone, if_neg fun hc => h959 hc.2, if_neg fun hc => hCn hc.1,
      if_neg fun hc => h958 hc.2]
  have htable : ∀ i p, (Role.table i, p) ∈ notes → ∀ j,
      y.mem (frameOf p) j = m.mem (frameOf p) j := by
    intro i p hp j
    have hp' := l.mem_free hp
    rw [hmem _ (u.kept p hp'), if_neg fun hc => u.clone p hp' hc.1,
      if_neg fun hc => hfresh _ hp hc.1.symm, if_neg fun hc => u.clone p hp' hc.1]
  have hprivate : ∀ i p, (Role.table i, p) ∈ notes → i < 1024 ∧ Private m0 x.S x.K i :=
    fun i p hp => table_of_wanted (l.mem_roles hp)
  constructor
  case total => rw [htotal]
  case ground => exact hground
  case setup => exact b.setup.trans (l.setup.trans hsetup)
  case order => exact l.order
  case once => exact l.once
  case keeps =>
    intro f hfc hfn hpage htab i
    rw [← hC] at hfc
    by_cases hw : x.MountWord f i
    · rw [hzero f i hw, b.blank f i hw]
    · rw [hword f i hw, if_neg fun hc => hfc hc.1, if_neg fun hc => hfn hc.1,
        if_neg fun hc => hfc hc.1, ← b.other f i hfc hw]
      exact l.keeps f hfc (fun hc => hpage ((b.privatePage_iff h o hC f).mp hc)) htab i
  case table =>
    intro i p hp h958 h959
    rw [← hC, hclone i h958 h959]
    exact l.table i p hp
  case shared =>
    intro i hi hne heq h958 h959
    have hno : ∀ p, (Role.table i, p) ∉ notes := fun p hp => (hprivate i p hp).2.2 heq
    have hsource : r.mem x.S i = m0.mem x.S i :=
      b.other _ _ (Begun.source_ne_clone h hC) fun hw => hne (b.blank _ _ hw)
    have hkernel : r.mem x.S i = r.mem x.K i := by
      by_contra hc
      exact ((b.private_iff h o hC hi).mp ⟨hsource ▸ hne, hc⟩).2 heq
    rw [← hC, hclone i h958 h959, l.shared i hi hno, if_pos ⟨hi, hkernel⟩, hsource]
  case blank =>
    intro i hi hz
    have hno : ∀ p, (Role.table i, p) ∉ notes := fun p hp => (hprivate i p hp).2.1 hz
    have hsource : r.mem x.S i = 0 := by
      rw [b.other _ _ (Begun.source_ne_clone h hC), hz]
      rintro (⟨-, hw⟩ | ⟨-, hw⟩) <;> omega
    rw [← hC, hclone i (by omega) (by omega), l.shared i (by omega) hno, hsource, ite_self]
  case page =>
    intro i p hp j q hq
    obtain ⟨hi, hpriv⟩ := hprivate i p hp
    rw [htable i p hp, l.page i p hp j q hq, b.pteAt_eq h o hC hi hpriv]
  case empty =>
    intro i p hp j hj hno
    rw [htable i p hp, l.empty i p hp j hj hno]
  case written =>
    intro i j q hq
    obtain ⟨hi, -, hpriv, -⟩ := page_of_wanted (l.mem_roles hq)
    obtain ⟨hpage, i', j', q', hq', hvalue⟩ := l.written i j q hq
    have hfree := l.mem_free hq'
    have hstale : ∀ k, r.mem (frameOf q') k = m0.mem (frameOf q') k := fun k =>
      b.other _ _ (u.clone q' hfree) (not_mountWord (u.kept q' hfree) k)
    obtain ⟨hkept, hne⟩ := g.page _ hpage
    refine ⟨i', j', q', hq', ?_⟩
    rw [← b.pteAt_eq h o hC hi hpriv, hmem _ hkept, if_neg fun hc => hne hc.1,
      if_neg (by omega), if_neg fun hc => hne hc.1, hvalue, hstale, hstale]
  case selfTable =>
    rw [← hC, hmem _ g.clone, if_neg (by omega), if_neg fun hc => hCn hc.1, if_pos ⟨rfl, rfl⟩]
  case selfPages => rw [← hC, hmem _ g.clone, if_pos ⟨rfl, rfl⟩]
  case selfWord =>
    rw [hmem _ (u.kept n hn), if_neg fun hc => hCn hc.1.symm, if_pos ⟨rfl, rfl⟩]
  case stale =>
    intro i hi
    have hkeep := l.keeps (frameOf n) hCn.symm (u.page n hn)
      (fun j p hp => hfresh (Role.table j, p) hp) i
    rw [hmem _ (u.kept n hn), if_neg fun hc => hCn hc.1.symm, if_neg fun hc => hi hc.2,
      if_neg fun hc => hCn hc.1.symm, hkeep]
    exact b.other _ _ hCn.symm (not_mountWord (u.kept n hn) i)

end

/-- **`clone_directory` returns** when there are pages for the clone, all roles and its own table.
-/
theorem Source.cloneDirectory_eq (h : Source m D T K w used free S) (o : Own m D T K w used S)
    (hsrc : frameOf src.physical = S) (hlen : (wantedEntries m S K 1024 0).length + 2 ≤ free.length)
    :
    ∃ c n free' notes m', cloneDirectory m src = some (userDirectory c, m') ∧
      Cloned m D T K w used free S m' free' notes c n := by
  obtain ⟨free0, c, rfl⟩ : ∃ free0 c, free = free0 ++ [c] := by
    rcases eq_nil_or_concat free with rfl | ⟨l, c, rfl⟩
    · simp at hlen
    · exact ⟨l, c, concat_eq_append⟩
  rw [length_append, length_singleton] at hlen
  obtain ⟨s, t, s', t', m1, m2, m3, r, hpop, hmount, hmount', hclear, b⟩ :=
    h.begin hsrc userDirVirtual userTablesVirtual
  obtain ⟨m4, free4, notes, hloops, l⟩ := b.loops h o rfl (by dsimp only; omega)
  obtain ⟨free', n, rfl⟩ := l.exists_top (by dsimp only; omega)
  have hend := l.conclude (c := c) (b.stage h o rfl) (b.unclaimed h o rfl)
  refine ⟨c, n, free', notes, _, ?_, b.cloned h o rfl l⟩
  rw [cloneDirectory, hpop, bind_eq_bind, bind_some]
  simp only [bind_eq_bind]
  rw [hmount, bind_some, hmount', bind_some, hclear, bind_some, hloops, bind_some]
  have hpair := congrArg (Option.bind · fun m =>
    some (userDirectory c, m)) hend
  simp only [bind_assoc, bind_some] at hpair
  exact hpair

/-! ### The pages that were taken -/

namespace Cloned

variable {m' : Machine} {all : List UInt32}
  {notes : List (Role × UInt32)} {c n : UInt32}

section

variable (d : Cloned m D T K w used all S m' free notes c n)

include d

theorem mem_all : c ∈ all ∧ n ∈ all ∧ ∀ a ∈ notes, a.2 ∈ all := by
  rw [d.total]
  refine ⟨by simp, by simp, fun a ha => ?_⟩
  have hmem : a.2 ∈ notes.map Prod.snd := mem_map_of_mem ha
  simp [hmem]

theorem exists_note_iff {ρ : Role} : (∃ p, (ρ, p) ∈ notes) ↔ ρ ∈ wantedEntries m S K 1024 0 := by
  have hmem : ρ ∈ notes.map Prod.fst ↔ ρ ∈ wantedEntries m S K 1024 0 := by
    rw [d.order, List.mem_reverse]
  rw [← hmem, List.mem_map]
  constructor
  · rintro ⟨p, hp⟩
    exact ⟨(ρ, p), hp, rfl⟩
  · rintro ⟨⟨ρ', p⟩, hp, rfl⟩
    exact ⟨p, hp⟩

theorem exists_table (hi : i < 1024) (hp : Private m S K i) : ∃ p, (Role.table i, p) ∈ notes := by
  refine d.exists_note_iff.mpr (mem_wantedEntries.mpr ⟨i, Nat.zero_le i, by omega, ?_⟩)
  exact mem_wanted.mpr ⟨hp, .inl rfl⟩

theorem exists_page (hi : i < 1024) (hp : Private m S K i) (hj : j < 1024)
    (hpte : pteAt m S i j ≠ 0) : ∃ q, (Role.page i j, q) ∈ notes := by
  refine d.exists_note_iff.mpr (mem_wantedEntries.mpr ⟨i, Nat.zero_le i, by omega, ?_⟩)
  exact mem_wanted.mpr ⟨hp, .inr ⟨j, hj, hpte, rfl⟩⟩

end

end Cloned

end AthenX.Paging
