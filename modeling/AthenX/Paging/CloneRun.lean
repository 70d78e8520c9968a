import AthenX.Paging.Clone

/-!
# What `clone_directory` does

The loops of `clone_directory` rely on the frames of `Ground`, on the source and on its private page
tables. `copy_page_physical` writes to the pages of the source, and `Stage` says that none of these
is such a page or the clone. Every page taken is noted with what it was taken for. `Cloning`
describes memory by these notes, which come in a fixed order, `wanted`.
-/

namespace AthenX.Paging

open List Option

/-- What a page was taken for. -/
inductive Role where
  | directory
  | table (i : ℕ)
  | page (i j : ℕ)
  | self
  deriving DecidableEq, Repr

/-- The frames that play a part: the current directory `D`, the kernel's `K`, the source `S` and the
clone `C`, with their slots and windows. -/
structure Site where
  D : ℕ
  T : ℕ
  K : ℕ
  w : ℕ
  used : List UInt32
  S : ℕ
  C : ℕ
  s : ℕ
  t : ℕ
  s' : ℕ
  t' : ℕ

/-- Where the source is mounted. -/
abbrev Site.src (x : Site) : Mount := mountAt x.s x.t

/-- Where the clone is mounted. -/
abbrev Site.dest (x : Site) : Mount := mountAt x.s' x.t'

/-- Entry `i` of directory `S` has a page table that is not the kernel's. -/
def Private (r : Machine) (S K i : ℕ) : Prop := r.mem S i ≠ 0 ∧ r.mem S i ≠ r.mem K i

/-- The entry of page `j` of page table `i`. -/
def pteAt (r : Machine) (S i j : ℕ) : UInt32 := r.mem (frameOf (r.mem S i)) j

/-- A private page of the source lies in frame `f`. -/
def PrivatePage (r : Machine) (S K f : ℕ) : Prop :=
  ∃ i < 1024, Private r S K i ∧ ∃ j < 1024, pteAt r S i j ≠ 0 ∧ f = frameOf (pteAt r S i j)

/-- A frame whose contents the loops rely on. -/
def Kept (r : Machine) (D T K w : ℕ) (used : List UInt32) (S f : ℕ) : Prop :=
  Rests r D T K w used f ∨ f = S ∨ ∃ i < 1024, Private r S K i ∧ f = frameOf (r.mem S i)

abbrev Site.Kept (x : Site) (r : Machine) (f : ℕ) : Prop :=
  Paging.Kept r x.D x.T x.K x.w x.used x.S f

instance (r : Machine) (S K i : ℕ) : Decidable (Private r S K i) :=
  inferInstanceAs (Decidable (_ ∧ _))

/-- The roles of the pages taken for table `i`, from page `j` on. -/
def wantedPages (r : Machine) (S i : ℕ) : ℕ → ℕ → List Role
  | 0,     _ => []
  | n + 1, j =>
      if pteAt r S i j = 0 then wantedPages r S i n (j + 1)
      else Role.page i j :: wantedPages r S i n (j + 1)

/-- The roles of the pages that are taken for entry `i`, in order. -/
def wanted (r : Machine) (S K i : ℕ) : List Role :=
  if Private r S K i then Role.table i :: wantedPages r S i 1024 0 else []

/-- The roles of the pages that are taken for the entries from `i` on. -/
def wantedEntries (r : Machine) (S K : ℕ) : ℕ → ℕ → List Role
  | 0,     _ => []
  | n + 1, i => wanted r S K i ++ wantedEntries r S K n (i + 1)

variable {m' m1 r : Machine} {K S f j : ℕ} {i k p q : UInt32} {ρ : Role} {a b : Role × UInt32}

theorem wantedPages_eq (r : Machine) (S i n j : ℕ) : wantedPages r S i n j =
    (range' j n).flatMap fun k => if pteAt r S i k = 0 then [] else [Role.page i k] :=
  eq_flatMap_range' (fun _ => rfl) (fun _ _ => by rw [wantedPages]; split <;> rfl) n j

theorem wantedEntries_eq (r : Machine) (S K n i : ℕ) :
    wantedEntries r S K n i = (range' i n).flatMap (wanted r S K) :=
  eq_flatMap_range' (fun _ => rfl) (fun _ _ => rfl) n i

theorem mem_wanted {i : ℕ} : ρ ∈ wanted r S K i ↔
    Private r S K i ∧
      (ρ = Role.table i ∨ ∃ j < 1024, pteAt r S i j ≠ 0 ∧ ρ = Role.page i j) := by
  have hpages : ρ ∈ wantedPages r S i 1024 0 ↔
      ∃ j < 1024, pteAt r S i j ≠ 0 ∧ ρ = Role.page i j := by
    simp [wantedPages_eq, mem_range'_1]
  rw [wanted]
  split
  · next hp => rw [mem_cons, hpages, and_iff_right hp]
  · next hp => simp [hp]

theorem mem_wantedEntries {n i : ℕ} :
    ρ ∈ wantedEntries r S K n i ↔ ∃ k, i ≤ k ∧ k < i + n ∧ ρ ∈ wanted r S K k := by
  simp [wantedEntries_eq, mem_range'_1, and_assoc]

/-! ### The stage -/

/-- Both directories are mounted. -/
structure Site.Mounts (x : Site) (r : Machine) : Prop where
  slot_lt : x.s < 4 ∧ x.s' < 4
  window_lt : x.t < 8 ∧ x.t' < 8
  srcSlot : Entry (r.mem x.T (1019 + x.s)) x.S
  srcWindow : Entry (r.mem x.D (1012 + x.t)) x.S
  destSlot : Entry (r.mem x.T (1019 + x.s')) x.C
  destWindow : Entry (r.mem x.D (1012 + x.t')) x.C

/-- The loops rely neither on the clone nor on a page that is copied. -/
structure Stage (r : Machine) (x : Site) : Prop extends x.Mounts r where
  ground : ∃ free, Ground r x.D x.T x.K x.w x.used free
  clone : ¬x.Kept r x.C
  present : ∀ i < 1024, r.mem x.S i ≠ 0 → present (r.mem x.S i) = true
  page : ∀ f, PrivatePage r x.S x.K f → ¬x.Kept r f ∧ f ≠ x.C

/-- The frames that the loops rely on are as in `r`. -/
structure Intact (r m : Machine) (x : Site) : Prop where
  setup : SameSetup r m
  kept : ∀ f, x.Kept r f → ∀ i, m.mem f i = r.mem f i

section

variable {m m' : Machine} {x : Site}

theorem Intact.congr (h : Intact r m x) (hs : SameSetup m m')
    (hmem : ∀ f, x.Kept r f → ∀ i, m'.mem f i = m.mem f i) :
    Intact r m' x :=
  ⟨h.setup.trans hs, fun f hf i => (hmem f hf i).trans (h.kept f hf i)⟩

theorem Intact.poke (h : Intact r m x) (hf : ¬x.Kept r f)
    (i : ℕ) (v : UInt32) : Intact r (m.poke f i v) x := by
  refine h.congr sameSetup_mem fun g hg j => ?_
  rw [Machine.poke_mem, if_neg]
  rintro ⟨rfl, -⟩
  exact hf hg

namespace Stage

theorem current (g : Stage r x) (h : Intact r m x) : Current m x.D x.T x.w := by
  obtain ⟨free, hground⟩ := g.ground
  exact hground.current_of_needed h.setup.regs fun f i hn =>
    h.kept f (.inl (.inl (Ground.isTable_of_needed hn))) i

theorem slots (h : Intact r m x) (i : ℕ) : m.mem x.T i = r.mem x.T i :=
  h.kept _ (.inl (.inl (.inr (.inl rfl)))) i

theorem windows (h : Intact r m x) (i : ℕ) : m.mem x.D i = r.mem x.D i :=
  h.kept _ (.inl (.inl (.inl rfl))) i

section

variable (g : Stage r x) (h : Intact r m x)

include g h

/-- `src.directory[i]`. -/
theorem srcDirectory (hi : i.toNat < 1024) :
    m.load (x.src.directory + 4 * i) = some (r.mem x.S i.toNat) := by
  have hslot : Entry (m.mem x.T (1019 + x.s)) x.S := by rw [slots h]; exact g.srcSlot
  show m.load (slotAddr x.s + 4 * i) = _
  rw [Machine.load, (g.current h).translate_slotAddr g.slot_lt.1 hslot hi, map_some,
    h.kept x.S (.inr (.inl rfl))]

/-- `dest.directory[i]`. -/
theorem destDirectory (hi : i.toNat < 1024) :
    m.translate (x.dest.directory + 4 * i) = some (x.C, i.toNat) := by
  have hslot : Entry (m.mem x.T (1019 + x.s')) x.C := by rw [slots h]; exact g.destSlot
  exact (g.current h).translate_slotAddr g.slot_lt.2 hslot hi

/-- `src.pages[k]`, in a private page table. -/
theorem srcPages {i : ℕ} (hi : i < 1024) (hj : j < 1024) (hk : k.toNat = 1024 * i + j)
    (hp : Private r x.S x.K i) :
    m.load (x.src.pages + 4 * k) = some (pteAt r x.S i j) := by
  have hwindow : Entry (m.mem x.D (1012 + x.t)) x.S := by rw [windows h]; exact g.srcWindow
  have htr := (g.current h).translate_windowAddr g.window_lt.1 hwindow (n := k) (by omega)
  rw [show k.toNat / 1024 = i by omega, show k.toNat % 1024 = j by omega,
    h.kept x.S (.inr (.inl rfl)), if_pos (g.present i hi hp.1)] at htr
  show m.load (windowAddr x.t + 4 * k) = _
  rw [Machine.load, htr, map_some, h.kept _ (.inr (.inr ⟨i, hi, hp, rfl⟩))]
  rfl

/-- `dest.pages[k]`, where the clone has a page table. -/
theorem destPages {i : ℕ} (hi : i < 1024) (hj : j < 1024) (hk : k.toNat = 1024 * i + j)
    (he : Entry (m.mem x.C i) f) :
    m.translate (x.dest.pages + 4 * k) = some (f, j) := by
  have hwindow : Entry (m.mem x.D (1012 + x.t')) x.C := by rw [windows h]; exact g.destWindow
  have htr := (g.current h).translate_windowAddr g.window_lt.2 hwindow (n := k) (by omega)
  rw [show k.toNat / 1024 = i by omega, show k.toNat % 1024 = j by omega, if_pos he.1, he.2] at htr
  exact htr

end

end Stage

end

/-! ### The state of the loops -/

/-- The entry of a page table or page that was taken for the clone. -/
def userEntry (p : UInt32) : UInt32 := p ||| pagePresent ||| pageWrite ||| pageUser

theorem entry_userEntry (p : UInt32) : Entry (userEntry p) (frameOf p) := by
  have h := entry_table p
  refine ⟨?_, ?_⟩
  · have hodd := h.1
    rw [present_iff] at hodd ⊢
    exact Word32.odd_or _ _ hodd
  · rw [← h.2, frameOf_eq, frameOf_eq, userEntry, Word32.page_or _ (by decide)]

/-- What is read at such an entry, which has its flags in the low bits. -/
theorem peek_userEntry (m : Machine) (hp : p.toNat % 4096 = 0) :
    m.peek (userEntry p) = shifted (m.mem (frameOf p) 1) (m.mem (frameOf p) 2) := by
  have hlt := p.toNat_lt
  have hentry : (userEntry p).toNat = p.toNat + 7 := by
    rw [show userEntry p = p ||| 7 by
      rw [userEntry, UInt32.or_assoc, UInt32.or_assoc]; congr 1]
    exact Word32.toNat_or_of_aligned hp (by decide)
  have hnext : (userEntry p + 4).toNat = p.toNat + 11 := by
    rw [UInt32.toNat_add, show (4 : UInt32).toNat = 4 by decide]
    omega
  have hmod : userEntry p % 4 = 3 := by
    apply UInt32.toNat_inj.mp
    rw [UInt32.toNat_mod, show (4 : UInt32).toNat = 4 by decide,
      show (3 : UInt32).toNat = 3 by decide]
    omega
  have hframe : frameOf (userEntry p) = frameOf p := (entry_userEntry p).2
  have hframe' : frameOf (userEntry p + 4) = frameOf p := by
    rw [frameOf_eq, frameOf_eq]
    omega
  have hword : wordOf (userEntry p) = 1 := by
    rw [wordOf_eq]
    omega
  have hword' : wordOf (userEntry p + 4) = 2 := by
    rw [wordOf_eq]
    omega
  rw [Machine.peek, hmod, hframe, hframe', hword, hword']
  rfl

/-- None of the pages `free₀` is the clone, a page that is copied, or a frame that the loops rely
on. -/
structure Unclaimed (r : Machine) (x : Site) (free₀ : List UInt32) : Prop where
  nodup : free₀.Nodup
  aligned : ∀ p ∈ free₀, p.toNat % 4096 = 0
  kept : ∀ p ∈ free₀, ¬x.Kept r (frameOf p)
  clone : ∀ p ∈ free₀, frameOf p ≠ x.C
  page : ∀ p ∈ free₀, ¬PrivatePage r x.S x.K (frameOf p)

/-- The loops are at entry `n`, and have taken the pages in `notes`, the latest first. -/
structure Cloning (r : Machine) (x : Site) (free₀ : List UInt32) (m : Machine)
    (free : List UInt32) (notes : List (Role × UInt32)) (roles : List Role) (n : ℕ) : Prop where
  ground : Ground m x.D x.T x.K x.w x.used free
  setup : SameSetup r m
  total : free₀ = free ++ notes.map Prod.snd
  order : notes.map Prod.fst = roles.reverse
  once : roles.Nodup
  keeps : ∀ f, f ≠ x.C → ¬PrivatePage r x.S x.K f →
    (∀ i p, (Role.table i, p) ∈ notes → f ≠ frameOf p) → ∀ k, m.mem f k = r.mem f k
  table : ∀ i p, (Role.table i, p) ∈ notes → m.mem x.C i = userEntry p
  shared : ∀ i < 1024, (∀ p, (Role.table i, p) ∉ notes) →
    m.mem x.C i = if i < n ∧ r.mem x.S i = r.mem x.K i then r.mem x.S i else 0
  page : ∀ i p, (Role.table i, p) ∈ notes → ∀ j q, (Role.page i j, q) ∈ notes →
    m.mem (frameOf p) j = userEntry q ||| (pageFlagsMask &&& pteAt r x.S i j)
  empty : ∀ i p, (Role.table i, p) ∈ notes → ∀ j < 1024, (∀ q, (Role.page i j, q) ∉ notes) →
    m.mem (frameOf p) j = 0
  written : ∀ i j q, (Role.page i j, q) ∈ notes →
    PrivatePage r x.S x.K (frameOf (pteAt r x.S i j)) ∧
    ∃ i' j' q', (Role.page i' j', q') ∈ notes ∧ m.mem (frameOf (pteAt r x.S i j)) 0 =
      shifted (r.mem (frameOf q') 1) (r.mem (frameOf q') 2)

namespace Cloning

variable {m : Machine} {x : Site} {free₀ free : List UInt32} {notes : List (Role × UInt32)}
  {roles : List Role} {n : ℕ}

section

variable (c : Cloning r x free₀ m free notes roles n)

include c

theorem mem_free (ha : a ∈ notes) : a.2 ∈ free₀ := by
  rw [c.total]
  exact mem_append_right _ (mem_map_of_mem ha)

theorem mem_roles (ha : a ∈ notes) : a.1 ∈ roles := by
  have hmem : a.1 ∈ notes.map Prod.fst := mem_map_of_mem ha
  rw [c.order] at hmem
  exact mem_reverse.mp hmem

theorem order_cons (p : UInt32) (ρ : Role) :
    ((ρ, p) :: notes).map Prod.fst = (roles ++ [ρ]).reverse := by
  rw [map_cons, c.order, reverse_append]
  rfl

theorem once_snoc (hρ : ρ ∉ roles) : (roles ++ [ρ]).Nodup := by
  refine nodup_append.mpr ⟨c.once, nodup_singleton ρ, ?_⟩
  intro a ha b hb hab
  rw [mem_singleton] at hb
  exact hρ (hb ▸ hab ▸ ha)

theorem length : free₀.length = free.length + roles.length := by
  have hroles := congrArg List.length c.order
  have htotal := congrArg List.length c.total
  rw [length_map, length_reverse] at hroles
  rw [length_append, length_map] at htotal
  omega

theorem exists_top (hlen : roles.length < free₀.length) : ∃ free' p, free = free' ++ [p] := by
  have hlength := c.length
  rcases eq_nil_or_concat free with rfl | ⟨free', p, rfl⟩
  · rw [length_nil] at hlength
    omega
  · exact ⟨free', p, concat_eq_append⟩

theorem next (hq : (Role.table n, q) ∈ notes) : Cloning r x free₀ m free notes roles (n + 1) where
  ground := c.ground
  setup := c.setup
  total := c.total
  order := c.order
  once := c.once
  keeps := c.keeps
  table := c.table
  shared i hi ht := by
    have hne : i ≠ n := by
      rintro rfl
      exact ht q hq
    rw [c.shared i hi ht]
    refine if_congr ?_ rfl rfl
    rw [show i < n ↔ i < n + 1 by omega]
  page := c.page
  empty := c.empty
  written := c.written

theorem pass (g : Stage r x) (hn : n < 1024)
    (hnew : ∀ p, (Role.table n, p) ∉ notes) (hground : Ground m' x.D x.T x.K x.w x.used free)
    (hsetup : SameSetup r m') (hother : ∀ f, f ≠ x.C → ∀ k, m'.mem f k = m.mem f k)
    (hclone : ∀ i, i ≠ n → m'.mem x.C i = m.mem x.C i)
    (hentry : m'.mem x.C n = if r.mem x.S n = r.mem x.K n then r.mem x.S n else 0)
    (hC : ∀ a ∈ notes, frameOf a.2 ≠ x.C) : Cloning r x free₀ m' free notes roles (n + 1) where
  ground := hground
  setup := hsetup
  total := c.total
  order := c.order
  once := c.once
  keeps f hf hp ht k := (hother f hf k).trans (c.keeps f hf hp ht k)
  table i p hp := by
    rw [hclone i fun hc => hnew p (hc ▸ hp)]
    exact c.table i p hp
  shared i hi ht := by
    rcases eq_or_ne i n with rfl | hne
    · rw [hentry]
      simp
    · rw [hclone i hne, c.shared i hi ht]
      refine if_congr ?_ rfl rfl
      rw [show i < n ↔ i < n + 1 by omega]
  page i p hp j q hq := by
    rw [hother _ (hC _ hp)]
    exact c.page i p hp j q hq
  empty i p hp j hj hq := by
    rw [hother _ (hC _ hp)]
    exact c.empty i p hp j hj hq
  written i j q hq := by
    obtain ⟨hpage, hwritten⟩ := c.written i j q hq
    rw [hother _ (g.page _ hpage).2]
    exact ⟨hpage, hwritten⟩

section

variable (u : Unclaimed r x free₀)

include u

theorem frame_ne (hp : p ∈ free) (ha : a ∈ notes) : frameOf p ≠ frameOf a.2 := by
  intro hf
  have hnd := u.nodup
  rw [c.total] at hnd
  have hp' : p ∈ free₀ := by
    rw [c.total]
    exact mem_append_left _ hp
  have heq := eq_of_frameOf_eq (u.aligned p hp') (u.aligned _ (c.mem_free ha)) hf
  exact (nodup_append.mp hnd).2.2 p hp _ (mem_map_of_mem ha) heq

theorem note_inj (ha : a ∈ notes) (hb : b ∈ notes) (hf : frameOf a.2 = frameOf b.2) : a = b := by
  have hnd := u.nodup
  rw [c.total] at hnd
  have heq := eq_of_frameOf_eq (u.aligned _ (c.mem_free ha)) (u.aligned _ (c.mem_free hb)) hf
  exact inj_on_of_nodup_map (nodup_append.mp hnd).2.1 ha hb heq

end

section

variable (g : Stage r x) (u : Unclaimed r x free₀)

include g u

theorem kept (hf : x.Kept r f) (k : ℕ) : m.mem f k = r.mem f k := by
  apply c.keeps
  · rintro rfl
    exact g.clone hf
  · exact fun hp => (g.page f hp).1 hf
  · rintro i p hp rfl
    exact u.kept p (c.mem_free hp) hf

theorem rests (hf : Rests r x.D x.T x.K x.w x.used f) (k : ℕ) : m.mem f k = r.mem f k :=
  c.kept g u (.inl hf) k

theorem intact : Intact r m x :=
  ⟨c.setup, fun _ hf => c.kept g u hf⟩

theorem rests_iff : Rests m x.D x.T x.K x.w x.used f ↔ Rests r x.D x.T x.K x.w x.used f := by
  have hD := c.rests g u (.inl (.inl rfl))
  rw [Rests, IsTable, hD, hD, Rests, IsTable]

theorem ground_congr (hmem : m1.mem = m.mem) {free' : List UInt32}
    (hground : Ground m1 x.D x.T x.K x.w x.used free') (hs : SameSetup m1 m')
    (hloc : m'.pmmStackLoc = m1.pmmStackLoc)
    (hkept : ∀ f, x.Kept r f → ∀ i, m'.mem f i = m1.mem f i) :
    Ground m' x.D x.T x.K x.w x.used free' := by
  refine hground.congr hs hloc fun f hf => hkept f (.inl ?_)
  rw [Rests, IsTable, hmem] at hf
  exact (c.rests_iff g u).mp hf

/-- **An entry that is not private**: it is copied if it is the kernel's. -/
theorem entry_shared (hi : i.toNat = n) (hn : n < 1024) (hnew : Role.table n ∉ roles)
    (hpriv : ¬Private r x.S x.K n) :
    ∃ m', cloneEntry x.src x.dest i m = some m' ∧
      Cloning r x free₀ m' free notes roles (n + 1) := by
  have hint := c.intact g u
  have hnotes : ∀ p, (Role.table n, p) ∉ notes := fun p hp => hnew (c.mem_roles hp)
  have hC : ∀ a ∈ notes, frameOf a.2 ≠ x.C := fun a ha => u.clone _ (c.mem_free ha)
  have hload := g.srcDirectory hint (i := i) (by omega)
  rw [hi] at hload
  by_cases hz : r.mem x.S n = 0
  · refine ⟨m, ?_, ?_⟩
    · rw [cloneEntry, hload, bind_eq_bind, bind_some, if_pos hz]
    · refine c.pass g hn hnotes c.ground c.setup (fun _ _ _ => rfl) (fun _ _ => rfl) ?_ hC
      rw [c.shared n hn hnotes, if_neg fun hc => absurd hc.1 (lt_irrefl n), hz, ite_self]
  · have heq : r.mem x.S n = r.mem x.K n := by
      by_contra hne
      exact hpriv ⟨hz, hne⟩
    have hkernel := c.ground.load_kernel (i := i) (by omega)
    rw [hi, c.rests g u (.inl (.inr (.inr (.inl rfl)))), ← heq] at hkernel
    have hstore : m.store (x.dest.directory + 4 * i) (r.mem x.S n) =
        some (m.poke x.C n (r.mem x.S n)) := by
      rw [Machine.store, g.destDirectory hint (by omega), map_some, hi]
    refine ⟨m.poke x.C n (r.mem x.S n), ?_, ?_⟩
    · rw [cloneEntry, hload, bind_eq_bind, bind_some, if_neg hz, hkernel,
        bind_some, if_pos rfl, hstore]
    · have hsetup : SameSetup m (m.poke x.C n (r.mem x.S n)) := sameSetup_mem
      refine c.pass g hn hnotes ?_ (c.setup.trans hsetup) ?_ ?_ ?_ hC
      · refine c.ground.congr hsetup rfl ?_
        intro f hf k
        rw [Machine.poke_mem, if_neg]
        rintro ⟨rfl, -⟩
        exact g.clone (.inl ((c.rests_iff g u).mp hf))
      · intro f hf k
        rw [Machine.poke_mem, if_neg fun hc => hf hc.1]
      · intro i hi
        rw [Machine.poke_mem, if_neg fun hc => hi hc.2]
      · rw [Machine.poke_mem, if_pos ⟨rfl, rfl⟩, if_pos heq]

end

end

/-! ### One entry -/

theorem top (c : Cloning r x free₀ m (free ++ [p]) notes roles n) (u : Unclaimed r x free₀) :
    p ∈ free₀ ∧ (∀ a ∈ notes, frameOf p ≠ frameOf a.2) ∧
      free₀ = free ++ p :: notes.map Prod.snd := by
  have hp : p ∈ free ++ [p] := by simp
  refine ⟨?_, fun a ha => c.frame_ne u hp ha, ?_⟩
  · rw [c.total]
    exact mem_append_left _ hp
  · rw [c.total, append_assoc]
    rfl

section

variable (c : Cloning r x free₀ m (free ++ [p]) notes roles n) (g : Stage r x)
  (u : Unclaimed r x free₀)

include c g u

theorem pop : ∃ m1, pmmAllocPage m = some (p, m1) ∧ m1.mem = m.mem ∧ SameSetup m m1 ∧
      Ground m1 x.D x.T x.K x.w x.used free ∧ Intact r m1 x := by
  obtain ⟨hpop, hground⟩ := c.ground.pop
  have hsetup : SameSetup m m.popped := sameSetup_mem
  exact ⟨_, hpop, rfl, hsetup, hground, (c.intact g u).congr hsetup fun _ _ _ => rfl⟩

theorem table_state (hrole : Role.table n ∉ roles) (hrole' : ∀ j, Role.page n j ∉ roles)
    (hground : Ground m' x.D x.T x.K x.w x.used free) (hsetup : SameSetup r m')
    (hother : ∀ f, f ≠ x.C → f ≠ frameOf p → ∀ k, m'.mem f k = m.mem f k)
    (hclone : ∀ i, m'.mem x.C i = if i = n then userEntry p else m.mem x.C i)
    (hzero : ∀ j < 1024, m'.mem (frameOf p) j = 0) :
    Cloning r x free₀ m' free ((Role.table n, p) :: notes) (roles ++ [Role.table n]) n := by
  obtain ⟨hp, hfresh, htotal⟩ := c.top u
  have hnew : ∀ q, (Role.table n, q) ∉ notes := fun q hq => hrole (c.mem_roles hq)
  have hnew' : ∀ j q, (Role.page n j, q) ∉ notes := fun j q hq => hrole' j (c.mem_roles hq)
  have hsame : ∀ a ∈ notes, ∀ k, m'.mem (frameOf a.2) k = m.mem (frameOf a.2) k :=
    fun a ha => hother _ (u.clone _ (c.mem_free ha)) (hfresh a ha).symm
  have hold : ∀ {i q}, (Role.table i, q) ∈ (Role.table n, p) :: notes →
      i = n ∧ q = p ∨ i ≠ n ∧ (Role.table i, q) ∈ notes := by
    intro i q hq
    rcases mem_cons.mp hq with heq | hq
    · cases heq
      exact .inl ⟨rfl, rfl⟩
    · exact .inr ⟨fun hc => hnew q (hc ▸ hq), hq⟩
  have hpage : ∀ {i j q}, (Role.page i j, q) ∈ (Role.table n, p) :: notes →
      (Role.page i j, q) ∈ notes := by
    intro i j q hq
    rcases mem_cons.mp hq with heq | hq
    · cases heq
    · exact hq
  refine ⟨hground, hsetup, htotal, c.order_cons p _, c.once_snoc hrole, ?_, ?_, ?_, ?_, ?_, ?_⟩
  · intro f hf hpp ht k
    rw [hother f hf (ht n p mem_cons_self) k]
    exact c.keeps f hf hpp (fun i q hq => ht i q (mem_cons_of_mem _ hq)) k
  · intro i q hq
    rcases hold hq with ⟨rfl, rfl⟩ | ⟨hi, hq⟩
    · rw [hclone, if_pos rfl]
    · rw [hclone, if_neg hi]
      exact c.table i q hq
  · intro i hi ht
    have hne : i ≠ n := by
      rintro rfl
      exact ht p mem_cons_self
    rw [hclone, if_neg hne]
    exact c.shared i hi fun q hq => ht q (mem_cons_of_mem _ hq)
  · intro i q hq j q' hq'
    rcases hold hq with ⟨rfl, rfl⟩ | ⟨-, hq⟩
    · exact absurd (hpage hq') (hnew' j q')
    · rw [hsame _ hq]
      exact c.page i q hq j q' (hpage hq')
  · intro i q hq j hj hno
    rcases hold hq with ⟨rfl, rfl⟩ | ⟨-, hq⟩
    · exact hzero j hj
    · rw [hsame _ hq]
      exact c.empty i q hq j hj fun q' hq' => hno q' (mem_cons_of_mem _ hq')
  · intro i j q hq
    obtain ⟨hpp, i', j', q', hq', hvalue⟩ := c.written i j q (hpage hq)
    refine ⟨hpp, i', j', q', mem_cons_of_mem _ hq', ?_⟩
    rw [hother _ (g.page _ hpp).2, hvalue]
    rintro hf
    exact u.page p hp (hf ▸ hpp)

/-- **A new page table**: a page is taken, entered in the clone and cleared. -/
theorem new_table (hi : i.toNat = n) (hn : n < 1024) (hnew : Role.table n ∉ roles)
    (hnew' : ∀ j, Role.page n j ∉ roles) :
    ∃ m', ((pmmAllocPage m).bind fun a =>
        (a.2.store (x.dest.directory + 4 * i) (userEntry a.1)).bind fun m =>
          m.memsetPage (x.dest.pages + 4 * (i * 1024))) = some m' ∧
      Cloning r x free₀ m' free ((Role.table n, p) :: notes) (roles ++ [Role.table n]) n := by
  obtain ⟨hp, hfresh, -⟩ := c.top u
  obtain ⟨m1, hpop, hmem, hsetup1, hground1, hint1⟩ := c.pop g u
  have hCp : frameOf p ≠ x.C := u.clone p hp
  have hstore : m1.store (x.dest.directory + 4 * i) (userEntry p) =
      some (m1.poke x.C n (userEntry p)) := by
    rw [Machine.store, g.destDirectory hint1 (by omega), map_some, hi]
  set m2 := m1.poke x.C n (userEntry p) with hm2
  have hother : ∀ k f, f ≠ x.C → f ≠ frameOf p → ∀ j,
      (m2.pokes (frameOf p) (fun _ => 0) k).mem f j = m1.mem f j := by
    intro k f hC hf j
    simp only [Machine.pokes]
    rw [if_neg fun hc => hf hc.1, Machine.poke_mem, if_neg fun hc => hC hc.1]
  have hclone : ∀ k j, (m2.pokes (frameOf p) (fun _ => 0) k).mem x.C j =
      if j = n then userEntry p else m1.mem x.C j := by
    intro k j
    simp only [Machine.pokes]
    rw [if_neg fun hc => hCp hc.1.symm, Machine.poke_mem]
    simp
  have hkept : ∀ k f, x.Kept r f → ∀ j,
      (m2.pokes (frameOf p) (fun _ => 0) k).mem f j = m1.mem f j := by
    intro k f hf
    apply hother
    · rintro rfl
      exact g.clone hf
    · rintro rfl
      exact u.kept p hp hf
  have hsetup2 : ∀ k, SameSetup m1 (m2.pokes (frameOf p) (fun _ => 0) k) :=
    fun k => sameSetup_mem
  have hclear : m2.memsetPage (x.dest.pages + 4 * (i * 1024)) =
      some (m2.pokes (frameOf p) (fun _ => 0) 1024) := by
    apply Machine.fill_eq
    intro k hk
    have hindex : (i * 1024 + UInt32.ofNat k).toNat = 1024 * n + k := by
      rw [UInt32.toNat_add, UInt32.toNat_mul, UInt32.toNat_ofNat',
        show (1024 : UInt32).toNat = 1024 by decide]
      omega
    have htr := g.destPages (hint1.congr (hsetup2 k) (hkept k)) hn hk hindex
      (by rw [hclone, if_pos rfl]; exact entry_userEntry p)
    rw [UInt32.mul_add, ← UInt32.add_assoc] at htr
    exact htr
  refine ⟨_, by rw [hpop, bind_some, hstore, bind_some, hclear], ?_⟩
  refine c.table_state g u hnew hnew' ?_ ?_ ?_ ?_ ?_
  · exact c.ground_congr g u hmem hground1 (hsetup2 1024) rfl (hkept 1024)
  · exact (c.setup.trans hsetup1).trans (hsetup2 1024)
  · intro f hC hf k
    rw [hother 1024 f hC hf, hmem]
  · intro j
    rw [hclone, hmem]
  · intro j hj
    simp only [Machine.pokes]
    rw [if_pos ⟨trivial, hj⟩]

theorem page_state (hn : n < 1024) (hj : j < 1024) (hpriv : Private r x.S x.K n)
    (hpte : pteAt r x.S n j ≠ 0) (hq : (Role.table n, q) ∈ notes) (hrole : Role.page n j ∉ roles)
    (hground : Ground m' x.D x.T x.K x.w x.used free) (hsetup : SameSetup r m')
    (hother : ∀ f, f ≠ frameOf q → f ≠ frameOf (pteAt r x.S n j) → ∀ k, m'.mem f k = m.mem f k)
    (htable : ∀ k, m'.mem (frameOf q) k =
      if k = j then userEntry p ||| (pageFlagsMask &&& pteAt r x.S n j) else m.mem (frameOf q) k)
    (hwritten : m'.mem (frameOf (pteAt r x.S n j)) 0 =
      shifted (r.mem (frameOf p) 1) (r.mem (frameOf p) 2)) :
    Cloning r x free₀ m' free ((Role.page n j, p) :: notes) (roles ++ [Role.page n j]) n := by
  obtain ⟨hp, hfresh, htotal⟩ := c.top u
  have hpage : PrivatePage r x.S x.K (frameOf (pteAt r x.S n j)) :=
    ⟨n, hn, hpriv, j, hj, hpte, rfl⟩
  have hnew : ∀ q, (Role.page n j, q) ∉ notes := fun q hq => hrole (c.mem_roles hq)
  have hclone : ∀ k, m'.mem x.C k = m.mem x.C k :=
    hother _ (u.clone _ (c.mem_free hq)).symm (g.page _ hpage).2.symm
  -- the words of the page tables other than the one for the new page
  have hsame : ∀ i q', (Role.table i, q') ∈ notes → ∀ k, ¬(i = n ∧ k = j) →
      m'.mem (frameOf q') k = m.mem (frameOf q') k := by
    intro i q' hq' k hne
    by_cases hqq : q' = q
    · subst hqq
      obtain rfl : i = n := Role.table.inj (Prod.mk.inj (c.note_inj u hq' hq rfl)).1
      rw [htable, if_neg fun hk => hne ⟨rfl, hk⟩]
    · apply hother
      · intro hf
        exact hqq (Prod.mk.inj (c.note_inj u hq' hq hf)).2
      · intro hf
        exact u.page q' (c.mem_free hq') (hf ▸ hpage)
  have hentry : ∀ {i q'}, (Role.table i, q') ∈ (Role.page n j, p) :: notes →
      (Role.table i, q') ∈ notes := by
    intro i q' hq'
    rcases mem_cons.mp hq' with heq | hq'
    · cases heq
    · exact hq'
  refine ⟨hground, hsetup, htotal, c.order_cons p _, c.once_snoc hrole, ?_, ?_, ?_, ?_, ?_, ?_⟩
  · intro f hf hpp ht k
    rw [hother f (ht n q (mem_cons_of_mem _ hq)) fun hc => hpp (hc ▸ hpage)]
    exact c.keeps f hf hpp (fun i q hq => ht i q (mem_cons_of_mem _ hq)) k
  · intro i q' hq'
    rw [hclone]
    exact c.table i q' (hentry hq')
  · intro i hi ht
    rw [hclone]
    exact c.shared i hi fun q' hq' => ht q' (mem_cons_of_mem _ hq')
  · intro i q' hq' j' p' hp'
    have hmem := hentry hq'
    rcases mem_cons.mp hp' with heq | hold
    · obtain ⟨hrole', rfl⟩ := Prod.mk.inj heq
      obtain ⟨rfl, rfl⟩ := Role.page.inj hrole'
      have hnd : (notes.map Prod.fst).Nodup := by
        rw [c.order]
        exact nodup_reverse.mpr c.once
      obtain rfl : q' = q := (Prod.mk.inj (inj_on_of_nodup_map hnd hmem hq rfl)).2
      rw [htable, if_pos rfl]
    · rw [hsame i q' hmem j', c.page i q' hmem j' p' hold]
      rintro ⟨rfl, rfl⟩
      exact hnew p' hold
  · intro i q' hq' k hk hno
    have hmem := hentry hq'
    rw [hsame i q' hmem k, c.empty i q' hmem k hk fun p' hp' => hno p' (mem_cons_of_mem _ hp')]
    rintro ⟨rfl, rfl⟩
    exact hno p mem_cons_self
  · intro i j' p' hp'
    by_cases hf : frameOf (pteAt r x.S i j') = frameOf (pteAt r x.S n j)
    · rw [hf]
      exact ⟨hpage, n, j, p, mem_cons_self, hwritten⟩
    · rcases mem_cons.mp hp' with heq | hold
      · obtain ⟨rfl, rfl⟩ := Role.page.inj (Prod.mk.inj heq).1
        exact absurd rfl hf
      · obtain ⟨hpp, i', l, q', hq', hvalue⟩ := c.written i j' p' hold
        refine ⟨hpp, i', l, q', mem_cons_of_mem _ hq', ?_⟩
        rw [hother _ (fun hc => u.page q (c.mem_free hq) (hc ▸ hpp)) hf, hvalue]

/-- **A private page**: a page is taken and entered in the table, and the copy writes to the
source's. -/
theorem new_page (hn : n < 1024) (hj : j < 1024) (hpriv : Private r x.S x.K n)
    (hpte : pteAt r x.S n j ≠ 0) (hq : (Role.table n, q) ∈ notes) (hrole : Role.page n j ∉ roles)
    (hk : k.toNat = 1024 * n + j) :
    ∃ m', clonePage x.src x.dest k m = some m' ∧
      Cloning r x free₀ m' free ((Role.page n j, p) :: notes) (roles ++ [Role.page n j]) n := by
  obtain ⟨m1, hpop, hmem, hsetup1, hground1, hint1⟩ := c.pop g u
  have hqmem := c.mem_free hq
  have hpage : PrivatePage r x.S x.K (frameOf (pteAt r x.S n j)) :=
    ⟨n, hn, hpriv, j, hj, hpte, rfl⟩
  obtain ⟨hpage', hpageC⟩ := g.page _ hpage
  have hqC : frameOf q ≠ x.C := u.clone _ hqmem
  have hqf : frameOf q ≠ frameOf (pteAt r x.S n j) := fun hf => u.page _ hqmem (hf ▸ hpage)
  have hq' := u.kept q hqmem
  have hread := fun {y : Machine} (hy : Intact r y x) => g.srcPages hy hn hj hk hpriv
  have hdest := fun {y : Machine} (hy : Intact r y x) (he : y.mem x.C n = userEntry q) =>
    g.destPages hy hn hj hk (he ▸ entry_userEntry q)
  have hentry1 : m1.mem x.C n = userEntry q := by
    rw [hmem]
    exact c.table n q hq
  -- the entry is written
  set m2 := m1.poke (frameOf q) j (userEntry p) with hm2
  have hint2 : Intact r m2 x := hint1.poke hq' j _
  have hentry2 : m2.mem x.C n = userEntry q := by
    rw [Machine.poke_mem, if_neg fun hc => hqC hc.1.symm, hentry1]
  have hword2 : m2.mem (frameOf q) j = userEntry p := by
    rw [Machine.poke_mem, if_pos ⟨rfl, rfl⟩]
  -- the copy writes to the page of the source
  obtain ⟨m3, hm3, hcopied, hfirst⟩ := exists_copied m2 (userEntry p) (pteAt r x.S n j)
  have hint3 : Intact r m3 x := hint2.congr hcopied.setup fun f hf i =>
    hcopied.mem f (fun hc => hpage' (hc ▸ hf)) i
  have hentry3 : m3.mem x.C n = userEntry q := by
    rw [hcopied.mem _ hpageC.symm, hentry2]
  have hword3 : m3.mem (frameOf q) j = userEntry p := by
    rw [hcopied.mem _ hqf, hword2]
  refine ⟨m3.poke (frameOf q) j (userEntry p ||| (pageFlagsMask &&& pteAt r x.S n j)), ?_, ?_⟩
  · have hstore : m1.store (x.dest.pages + 4 * k)
        (p ||| pagePresent ||| pageWrite ||| pageUser) = some m2 := by
      rw [Machine.store, hdest hint1 hentry1, map_some]
      rfl
    have hload2 : m2.load (x.dest.pages + 4 * k) = some (userEntry p) := by
      rw [Machine.load, hdest hint2 hentry2, map_some, hword2]
    have hload3 : m3.load (x.dest.pages + 4 * k) = some (userEntry p) := by
      rw [Machine.load, hdest hint3 hentry3, map_some, hword3]
    simp only [clonePage, hread (c.intact g u), hread hint2, hread hint3, if_neg hpte, hpop, hstore,
      hload2, hload3, hm3, bind_eq_bind, bind_some]
    rw [Machine.store, hdest hint3 hentry3, map_some]
  · have hsetup : SameSetup m1 (m3.poke (frameOf q) j
        (userEntry p ||| (pageFlagsMask &&& pteAt r x.S n j))) :=
      SameSetup.trans sameSetup_mem (hcopied.setup.trans sameSetup_mem)
    have hother : ∀ f, f ≠ frameOf q → f ≠ frameOf (pteAt r x.S n j) → ∀ k,
        (m3.poke (frameOf q) j (userEntry p ||| (pageFlagsMask &&& pteAt r x.S n j))).mem f k =
          m1.mem f k := by
      intro f hf hf' k
      rw [Machine.poke_mem, if_neg fun hc => hf hc.1, hcopied.mem f hf', Machine.poke_mem,
        if_neg fun hc => hf hc.1]
    refine c.page_state g u hn hj hpriv hpte hq hrole ?_ ((c.setup.trans hsetup1).trans hsetup)
      ?_ ?_ ?_
    · refine c.ground_congr g u hmem hground1 hsetup hcopied.loc fun f hf => hother f ?_ ?_
      · rintro rfl
        exact hq' hf
      · rintro rfl
        exact hpage' hf
    · intro f hf hf' k
      rw [hother f hf hf', hmem]
    · intro k
      rw [Machine.poke_mem]
      by_cases hkj : k = j
      · rw [if_pos ⟨rfl, hkj⟩, if_pos hkj]
      · rw [if_neg fun hc => hkj hc.2, if_neg hkj, hcopied.mem _ hqf, Machine.poke_mem,
          if_neg fun hc => hkj hc.2, hmem]
    · obtain ⟨hp, hfresh, -⟩ := c.top u
      -- the page that was taken still has its old contents
      have hstale : ∀ k, m2.mem (frameOf p) k = r.mem (frameOf p) k := by
        intro k
        rw [Machine.poke_mem, if_neg fun hc => hfresh _ hq hc.1, hmem]
        exact c.keeps _ (u.clone p hp) (u.page p hp) (fun i q hq => hfresh (Role.table i, q) hq) k
      rw [Machine.poke_mem, if_neg fun hc => hqf hc.1.symm, hfirst,
        peek_userEntry _ (u.aligned p hp), hstale, hstale]

end

/-! ### The loops -/

/-- **The inner loop** from page `j` of a private page table on. -/
theorem pages (g : Stage r x) (u : Unclaimed r x free₀) (hn : n < 1024)
    (hpriv : Private r x.S x.K n) (k : ℕ) :
    ∀ {m : Machine} {free : List UInt32} {notes : List (Role × UInt32)} {roles : List Role}
      {j : ℕ} {i : UInt32}, Cloning r x free₀ m free notes roles n →
      (Role.table n, q) ∈ notes → (∀ l, j ≤ l → Role.page n l ∉ roles) → j + k ≤ 1024 →
      i.toNat = 1024 * n + j → roles.length + (wantedPages r x.S n k j).length ≤ free₀.length →
      ∃ m' free' notes', clonePages x.src x.dest k i m = some m' ∧
        Cloning r x free₀ m' free' notes' (roles ++ wantedPages r x.S n k j) n ∧
        (Role.table n, q) ∈ notes' := by
  induction k with
  | zero =>
    intro m free notes roles j i c hq _ _ _ _
    rw [wantedPages, append_nil]
    exact ⟨m, free, notes, rfl, c, hq⟩
  | succ k ih =>
    intro m free notes roles j i c hq hnew hk hi hlen
    have hnext : (i + 1).toNat = 1024 * n + (j + 1) := by
      rw [UInt32.toNat_add, UInt32.toNat_one]
      omega
    have hread := g.srcPages (c.intact g u) hn (by omega) hi hpriv
    rw [wantedPages] at hlen ⊢
    by_cases hz : pteAt r x.S n j = 0
    · rw [if_pos hz] at hlen ⊢
      have hpage : clonePage x.src x.dest i m = some m := by
        rw [clonePage, hread, bind_eq_bind, bind_some, if_pos hz]
      rw [clonePages, hpage]
      exact ih c hq (fun l hl => hnew l (by omega)) (by omega) hnext hlen
    · rw [if_neg hz, length_cons] at hlen
      rw [if_neg hz]
      obtain ⟨free', p, rfl⟩ := c.exists_top (by omega)
      obtain ⟨m', hpage, c'⟩ := c.new_page g u hn (by omega) hpriv hz hq (hnew j (le_refl j)) hi
      have hnew' : ∀ l, j + 1 ≤ l → Role.page n l ∉ roles ++ [Role.page n j] := by
        intro l hl hmem
        rcases mem_append.mp hmem with hmem | hmem
        · exact hnew l (by omega) hmem
        · have heq := (Role.page.inj (mem_singleton.mp hmem)).2
          omega
      rw [clonePages, hpage]
      obtain ⟨m'', free'', notes'', hrun, c'', hq''⟩ := ih c' (mem_cons_of_mem _ hq) hnew'
        (by omega) hnext (by rw [length_append, length_singleton]; omega)
      rw [append_assoc] at c''
      exact ⟨m'', free'', notes'', hrun, c'', hq''⟩

/-- **The body of the outer loop.** -/
theorem entry (c : Cloning r x free₀ m free notes roles n) (g : Stage r x)
    (u : Unclaimed r x free₀) (hi : i.toNat = n) (hn : n < 1024)
    (hnew : Role.table n ∉ roles) (hnew' : ∀ j, Role.page n j ∉ roles)
    (hlen : roles.length + (wanted r x.S x.K n).length ≤ free₀.length) :
    ∃ m' free' notes', cloneEntry x.src x.dest i m = some m' ∧
      Cloning r x free₀ m' free' notes' (roles ++ wanted r x.S x.K n) (n + 1) := by
  by_cases hpriv : Private r x.S x.K n
  · rw [wanted, if_pos hpriv, List.length_cons] at hlen
    obtain ⟨free', p, rfl⟩ := c.exists_top (by omega)
    obtain ⟨m1, htable, c1⟩ := c.new_table g u hi hn hnew hnew'
    have hnew1 : ∀ l, 0 ≤ l → Role.page n l ∉ roles ++ [Role.table n] := by
      intro l _ hmem
      rcases List.mem_append.mp hmem with hmem | hmem
      · exact hnew' l hmem
      · cases List.mem_singleton.mp hmem
    obtain ⟨m2, free2, notes2, hrun, c2, hq⟩ := pages g u hn hpriv 1024 c1 List.mem_cons_self
      hnew1 (le_refl _) (i := 1024 * i)
      (by rw [UInt32.toNat_mul, show (1024 : UInt32).toNat = 1024 by decide]; omega)
      (by rw [List.length_append, List.length_singleton]; omega)
    have hload := g.srcDirectory (c.intact g u) (i := i) (by omega)
    have hkernel := c.ground.load_kernel (i := i) (by omega)
    rw [hi] at hload hkernel
    rw [c.rests g u (.inl (.inr (.inr (.inl rfl))))] at hkernel
    refine ⟨m2, free2, notes2, ?_, ?_⟩
    · rw [cloneEntry, hload, Option.bind_eq_bind, Option.bind_some, if_neg hpriv.1, hkernel,
        Option.bind_some, if_neg hpriv.2]
      rw [← hrun, ← Option.bind_some m1 (clonePages _ _ 1024 (1024 * i)), ← htable]
      simp only [Option.bind_assoc]
      rfl
    · rw [wanted, if_pos hpriv]
      rw [List.append_assoc] at c2
      exact c2.next hq
  · obtain ⟨m', hrun, c'⟩ := c.entry_shared g u hi hn hnew hpriv
    rw [wanted, if_neg hpriv, List.append_nil]
    exact ⟨m', free, notes, hrun, c'⟩

/-- **The outer loop** comes back when there are pages for all roles. -/
theorem entries (g : Stage r x) (u : Unclaimed r x free₀) (k : ℕ) :
    ∀ {m : Machine} {free : List UInt32} {notes : List (Role × UInt32)} {roles : List Role}
      {n : ℕ} {i : UInt32}, Cloning r x free₀ m free notes roles n →
      (∀ l, n ≤ l → Role.table l ∉ roles ∧ ∀ j, Role.page l j ∉ roles) → n + k ≤ 1024 →
      i.toNat = n → roles.length + (wantedEntries r x.S x.K k n).length ≤ free₀.length →
      ∃ m' free' notes', cloneEntries x.src x.dest k i m = some m' ∧
        Cloning r x free₀ m' free' notes' (roles ++ wantedEntries r x.S x.K k n) (n + k) := by
  induction k with
  | zero =>
    intro m free notes roles n i c _ _ _ _
    rw [wantedEntries, append_nil]
    exact ⟨m, free, notes, rfl, c⟩
  | succ k ih =>
    intro m free notes roles n i c hnew hk hi hlen
    rw [wantedEntries, length_append] at hlen
    obtain ⟨m1, free1, notes1, hentry, c1⟩ := c.entry g u hi (by omega) (hnew n (le_refl n)).1
      (hnew n (le_refl n)).2 (by omega)
    have hnew1 : ∀ l, n + 1 ≤ l → Role.table l ∉ roles ++ wanted r x.S x.K n ∧
        ∀ j, Role.page l j ∉ roles ++ wanted r x.S x.K n := by
      intro l hl
      obtain ⟨hold, hold'⟩ := hnew l (by omega)
      simp only [mem_append, mem_wanted, not_or]
      refine ⟨⟨hold, ?_⟩, fun j => ⟨hold' j, ?_⟩⟩
      · rintro ⟨-, heq | ⟨j, -, -, heq⟩⟩
        · have := Role.table.inj heq
          omega
        · cases heq
      · rintro ⟨-, heq | ⟨j', -, -, heq⟩⟩
        · cases heq
        · have := (Role.page.inj heq).1
          omega
    obtain ⟨m', free', notes', hrun, c'⟩ := ih c1 hnew1 (by omega) (i := i + 1)
      (by rw [UInt32.toNat_add, UInt32.toNat_one]; omega)
      (by rw [length_append]; omega)
    rw [append_assoc, show n + 1 + k = n + (k + 1) by omega] at c'
    refine ⟨m', free', notes', ?_, c'⟩
    rw [cloneEntries, hentry, bind_eq_bind, bind_some, hrun]

end Cloning

end AthenX.Paging
