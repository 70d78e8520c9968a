import AthenX.KHeap.Stdlib
import AthenX.Paging.CloneContract
import AthenX.Paging.Destroy

/-!
# Cloning a directory and destroying the clone

What `clone_directory` takes, `destroy_directory` should give back. But the entries `958` and `959`,
where the clone maps itself, are overwritten, and `destroy_directory` stops at the address space of
the kernel, so what was taken from `958` on is lost. The page table for `USER_DIR_VIRTUAL` is not
cleared, and what its stale words refer to is freed. The pages on the stack are the same exactly if
these are the pages that are lost. A source that maps frames the loops work with, as a clone does,
is overwritten while it is read. Addresses are translated by the tables in memory.
-/

namespace AthenX.Paging

open List Option
open KHeap (Allocation Heap NodePtr Ready Returns kfree kmalloc rowHeap rowNodes)

/-! ### The two calls -/

/-- `sizeof(page_directory_t)`. -/
def pageDirectorySize : UInt32 := 12

/-- `clone_directory`, with the block that holds the structure. -/
def createClone (fuel : ℕ) (h : Heap) (m : Machine) (src : PageDirectory) :
    Option ((UInt32 × PageDirectory) × Heap × Machine) := do
  let (h, ptr) ← kmalloc fuel h pageDirectorySize
  let (dir, m) ← cloneDirectory m src
  some ((ptr, dir), h, m)

/-- `destroy_directory`, with the block that holds the structure. -/
def deleteClone (fuel : ℕ) (h : Heap) (m : Machine) (clone : UInt32 × PageDirectory) :
    Option (Heap × Machine) := do
  let m ← destroyDirectory m clone.2
  let h ← kfree fuel h clone.1
  some (h, m)

/-- The stack holds the pages `all` again, and neither the source nor the kernel maps one. -/
structure Restored (m : Machine) (D K S : ℕ) (all : List UInt32) : Prop where
  pages : ∃ used free, Pile m D used free ∧ free.Perm all
  unmapped : ∀ f, FreeFrame m f → ¬Mapped m S f ∧ ¬Mapped m K f

/-- The source is cloned and the clone destroyed: free pages and live blocks are as before. -/
def Restores (h : Heap) (ns : List NodePtr) (live : List Allocation)
    (m : Machine) (D K : ℕ) (all : List UInt32) (src : PageDirectory) : Prop :=
  ∃ clone h₁ m₁ h₂ m₂, Returns (createClone · h m src) (clone, h₁, m₁) ∧
    Returns (deleteClone · h₁ m₁ clone) (h₂, m₂) ∧
    Ready h₂ ns live ∧ Restored m₂ D K (frameOf src.physical) all

/-! ### What is lost and what is freed by mistake -/

/-- The pages that the first `n` words from `j` on refer to. -/
def staleWords (m : Machine) (f : ℕ) : ℕ → ℕ → List UInt32
  | 0,     _ => []
  | n + 1, j =>
      (if m.mem f j = 0 then [] else freedPage m.pmmLocation (m.mem f j)) ++ staleWords m f n (j +
        1)

/-- The pages that the words of the frame refer to, but for the last. -/
def stalePages (m : Machine) (f : ℕ) : List UInt32 := staleWords m f 1023 0

/-- The page taken for `USER_DIR_VIRTUAL`: the one after those for all roles. -/
def selfTablePage (m : Machine) (S K : ℕ) (all : List UInt32) : Option UInt32 :=
  all.reverse[(wantedEntries m S K 1024 0).length + 1]?

/-- The pages that are taken for the entries from `958` on. -/
def leakedPages (m : Machine) (S K : ℕ) (all : List UInt32) : List UInt32 :=
  (all.reverse.drop ((wantedEntries m S K 958 0).length + 1)).take
    (wantedEntries m S K 66 958).length

/-- `pmm_free_page` accepts the free pages, the stack is no source or page table, and no private
page is one. -/
structure Tidy (m : Machine) (K S : ℕ) (used all : List UInt32) : Prop where
  high : ∀ p ∈ all, m.pmmLocation ≤ p
  stack : ∀ q ∈ used, frameOf q ≠ S ∧ ¬Tabled m S (frameOf q) ∧ ¬Tabled m K (frameOf q)
  page : ∀ f, PrivatePage m S K f → ¬Tabled m K f

/-- The pages that are lost are those that are freed by mistake. -/
def Balanced (m : Machine) (S K : ℕ) (all : List UInt32) : Prop :=
  ∀ n, selfTablePage m S K all = some n →
    (stalePages m (frameOf n)).Perm (leakedPages m S K all)

/-- A source whose clone can be undone: the loops do not overwrite what they read, and no more pages
are freed than taken. -/
structure Undoable (m : Machine) (D T K w : ℕ) (used all : List UInt32) (S : ℕ) : Prop where
  own : Own m D T K w used S
  tidy : Tidy m K S used all
  balanced : Balanced m S K all

/-! ### The pages of the notes -/

theorem wantedEntries_add (m : Machine) (S K a b i : ℕ) :
    wantedEntries m S K (b + a) i = wantedEntries m S K b i ++ wantedEntries m S K a (i + b) := by
  simp only [wantedEntries_eq, ← flatMap_append, range'_append_1]

/-- The page noted for a role. -/
def pageFor (notes : List (Role × UInt32)) (ρ : Role) : List UInt32 :=
  (notes.filter fun a => a.1 = ρ).map Prod.snd

theorem pageFor_of_mem : ∀ {notes : List (Role × UInt32)} {ρ : Role} {p : UInt32},
    (notes.map Prod.fst).Nodup → (ρ, p) ∈ notes → pageFor notes ρ = [p] := by
  intro notes ρ p hnd hmem
  induction notes with
  | nil => cases hmem
  | cons a notes ih =>
    obtain ⟨hnot, hnd⟩ := nodup_cons.mp hnd
    have hother : ∀ b ∈ notes, b.1 ≠ a.1 := fun b hb hc => hnot (hc ▸ mem_map_of_mem hb)
    rcases mem_cons.mp hmem with heq | hmem
    · subst heq
      have hnone : notes.filter (fun a => decide (a.1 = ρ)) = [] := by
        rw [filter_eq_nil_iff]
        intro b hb
        simpa using hother b hb
      rw [pageFor, filter_cons_of_pos (by simp), hnone]
      rfl
    · have hne : a.1 ≠ ρ := fun hc => hother _ hmem hc.symm
      rw [pageFor, filter_cons_of_neg (by simpa using hne)]
      exact ih hnd hmem

theorem flatMap_pageFor {notes l : List (Role × UInt32)} (hnd : (notes.map Prod.fst).Nodup)
    (hsub : ∀ a ∈ l, a ∈ notes) : (l.map Prod.fst).flatMap (pageFor notes) = l.map Prod.snd := by
  induction l with
  | nil => rfl
  | cons a l ih =>
    rw [map_cons, flatMap_cons, pageFor_of_mem hnd (hsub a mem_cons_self),
      ih fun b hb => hsub b (mem_cons_of_mem _ hb)]
    rfl

/-! ### What is freed of a clone -/

variable {e p ptr : UInt32} {fuel i : ℕ} {m m'' : Machine}

theorem freedPage_eq {loc : UInt32} (hp : p.toNat % 4096 = 0) (hf : frameOf e = frameOf p)
    (hlow : loc ≤ p) : freedPage loc e = [p] := by
  have hmask : e &&& pageAddrMask = p := by
    apply UInt32.toNat_inj.mp
    rw [frameOf_eq, frameOf_eq] at hf
    rw [pageAddrMask, Word32.toNat_aligned]
    omega
  rw [freedPage, hmask, if_neg (UInt32.not_lt.mpr hlow)]

theorem entry_or_flags (q e : UInt32) :
    Entry (userEntry q ||| (pageFlagsMask &&& e)) (frameOf q) := by
  obtain ⟨hpresent, hframe⟩ := entry_userEntry q
  refine ⟨?_, ?_⟩
  · rw [present_iff] at hpresent ⊢
    exact Word32.odd_or _ _ hpresent
  · have hlt : (pageFlagsMask &&& e).toNat < 4096 := by
      rw [UInt32.and_comm, pageFlagsMask, Word32.toNat_offset]
      omega
    rw [← hframe, frameOf_eq, frameOf_eq, Word32.page_or _ hlt]

theorem released_add (m : Machine) (C pageNum i a b j : ℕ) : released m C pageNum i (b + a) j =
    released m C pageNum i b j ++ released m C pageNum i a (j + b) := by
  simp only [eq_flatMap_range' (f := released m C pageNum i) (fun _ => rfl) fun _ _ => rfl,
    ← flatMap_append, range'_append_1]

theorem releasedEntries_add (m : Machine) (C K dirEntry pageNum a b i : ℕ) :
    releasedEntries m C K dirEntry pageNum (b + a) i =
      releasedEntries m C K dirEntry pageNum b i ++
        releasedEntries m C K dirEntry pageNum a (i + b) := by
  simp only [eq_flatMap_range' (f := releasedEntries m C K dirEntry pageNum) (fun _ => rfl)
    fun _ _ => rfl, ← flatMap_append, range'_append_1]

namespace Cloned

variable {m m' : Machine} {D T K w S : ℕ} {used all free : List UInt32}
  {notes : List (Role × UInt32)} {c n : UInt32}

section

variable (d : Cloned m D T K w used all S m' free notes c n)

include d

theorem nodup_roles : (notes.map Prod.fst).Nodup := by
  rw [d.order]
  exact nodup_reverse.mpr d.once

theorem exists_order :
    ∃ low lost : List UInt32, all.reverse = c :: (low ++ lost) ++ n :: free.reverse ∧
      low = (wantedEntries m S K 958 0).flatMap (pageFor notes) ∧
      low.length = (wantedEntries m S K 958 0).length ∧
      lost.length = (wantedEntries m S K 66 958).length := by
  have hfst : notes.reverse.map Prod.fst =
      wantedEntries m S K 958 0 ++ wantedEntries m S K 66 958 := by
    rw [map_reverse, d.order, reverse_reverse, show 1024 = 958 + 66 by decide, wantedEntries_add]
  obtain ⟨l1, l2, hsplit, h₁, h2⟩ := map_eq_append_iff.mp hfst
  have hsub : ∀ a ∈ l1, a ∈ notes := by
    intro a ha
    rw [← mem_reverse, hsplit]
    exact mem_append_left _ ha
  refine ⟨l1.map Prod.snd, l2.map Prod.snd, ?_, ?_, ?_, ?_⟩
  · rw [← map_append, ← hsplit, d.total]
    simp
  · rw [← h₁, flatMap_pageFor d.nodup_roles hsub]
  · rw [← h₁, length_map, length_map]
  · rw [← h2, length_map, length_map]

theorem selfTablePage_eq : selfTablePage m S K all = some n := by
  obtain ⟨low, lost, hall, -, hlow, hlost⟩ := d.exists_order
  have hlen : (wantedEntries m S K 1024 0).length + 1 = (c :: (low ++ lost)).length := by
    rw [show 1024 = 958 + 66 by decide, wantedEntries_add, length_append, ← hlow,
      length_cons, length_append, hlost]
  rw [selfTablePage, hall, hlen, List.getElem?_append_right (le_refl _), Nat.sub_self]
  rfl

/-- **The page table for `USER_DIR_VIRTUAL`**: what its stale words refer to is freed. -/
theorem released_self : ∀ k j, j + k ≤ 1023 →
    released m' (frameOf c) 982015 958 k j = staleWords m (frameOf n) k j := by
  have htable : frameOf (m'.mem (frameOf c) 958) = frameOf n := by
    rw [d.selfTable]
    exact frameOf_selfEntry n
  intro k
  induction k with
  | zero =>
    intro j _
    rfl
  | succ k ih =>
    intro j hj
    have hnum : ¬1024 * 958 + j = 982015 := by omega
    rw [released, staleWords, ih (j + 1) (by omega), htable, d.stale j (by omega), d.setup.location]
    simp [hnum]

variable (h : Source m D T K w used all S)

include h

theorem mem_eq {f : ℕ} (hpage : ¬PrivatePage m S K f)
    (hf : Rests m D T K w used f ∨ Uses m S f ∨ Uses m K f) (i : ℕ) : m'.mem f i = m.mem f i := by
  have hne : ∀ q ∈ all, f ≠ frameOf q := by
    rintro q hq rfl
    obtain ⟨h₁, h2, h3⟩ := h.unused q hq
    exact hf.elim h₁ (Or.elim · h2 h3)
  obtain ⟨hc, hn, hnotes⟩ := d.mem_all
  exact d.keeps f (hne c hc) (hne n hn) hpage (fun j q hq => hne q (hnotes _ hq)) i

/-- **The pages of a page table of the clone** are those that were taken for it. -/
theorem released_eq (hhigh : ∀ p ∈ all, m.pmmLocation ≤ p) (hp : (Role.table i, p) ∈ notes)
    (hi : i < 958) : ∀ k j, j + k ≤ 1024 →
    released m' (frameOf c) 982015 i k j = (wantedPages m S i k j).flatMap (pageFor notes) := by
  obtain ⟨-, -, hnotes⟩ := d.mem_all
  obtain ⟨-, hpriv⟩ := table_of_wanted (d.exists_note_iff.mp ⟨p, hp⟩)
  have htable : frameOf (m'.mem (frameOf c) i) = frameOf p := by
    rw [d.table i p hp (by omega) (by omega)]
    exact (entry_userEntry p).2
  intro k
  induction k with
  | zero =>
    intro j _
    rfl
  | succ k ih =>
    intro j hj
    rw [released, wantedPages, ih (j + 1) (by omega), htable, d.setup.location]
    by_cases hz : pteAt m S i j = 0
    · have hword : m'.mem (frameOf p) j = 0 := by
        refine d.empty i p hp j (by omega) fun q hq => ?_
        exact (page_of_wanted (d.exists_note_iff.mp ⟨q, hq⟩)).2.2.2 hz
      rw [if_pos hz, if_pos (.inl hword), nil_append]
    · obtain ⟨q, hq⟩ := d.exists_page (by omega) hpriv (by omega) hz
      obtain ⟨hpresent, hframe⟩ := entry_or_flags q (pteAt m S i j)
      have hmem := hnotes _ hq
      rw [if_neg hz, d.page i p hp j q hq, if_neg, flatMap_cons,
        pageFor_of_mem d.nodup_roles hq, freedPage_eq (h.aligned q hmem) hframe (hhigh q hmem)]
      rintro (hc | hc)
      · exact ne_zero_of_present hpresent hc
      · omega

variable (o : Own m D T K w used S)

include o

theorem kernel_eq (i : ℕ) : m'.mem K i = m.mem K i :=
  d.mem_eq h (fun hp => o.page K hp (.inl (.inl (.inr (.inr (.inl rfl))))))
    (.inr (.inr (.inl rfl))) i

theorem ne_kernel (hp : p ∈ all) (he : Entry e (frameOf p)) (hi : i < 1024) : e ≠ m'.mem K i := by
  rw [d.kernel_eq h o]
  rintro rfl
  exact (h.unused p hp).2.2 (.inr (.inl ⟨i, hi, ne_zero_of_present he.1, he.2.symm⟩))

theorem entry_of_not_private (hi : i < 958) (hp : ¬Private m S K i) :
    m'.mem (frameOf c) i = 0 ∨ m'.mem (frameOf c) i = m'.mem K i := by
  by_cases hz : m.mem S i = 0
  · exact .inl (d.blank i hi hz)
  · have heq : m.mem S i = m.mem K i := by
      by_contra hc
      exact hp ⟨hz, hc⟩
    refine .inr ?_
    rw [d.shared i (by omega) hz heq (by omega) (by omega), d.kernel_eq h o, heq]

section

variable (hhigh : ∀ p ∈ all, m.pmmLocation ≤ p)

include hhigh

/-- **The pages freed for an entry** are those that were taken for it. -/
theorem releasedEntry_perm (hi : i < 958) : (releasedEntry m' (frameOf c) K 959 982015 i).Perm
      ((wanted m S K i).flatMap (pageFor notes)) := by
  obtain ⟨-, -, hnotes⟩ := d.mem_all
  by_cases hp : Private m S K i
  · obtain ⟨p, hmem⟩ := d.exists_table (by omega) hp
    have hall := hnotes _ hmem
    have hentry := entry_userEntry p
    have hne := d.ne_kernel h o hall hentry (i := i) (by omega)
    rw [releasedEntry, d.released_eq h hhigh hmem hi 1024 0 (by omega), d.setup.location,
      d.table i p hmem (by omega) (by omega), if_neg, wanted, if_pos hp, flatMap_cons,
      pageFor_of_mem d.nodup_roles hmem, freedPage_eq (h.aligned p hall) hentry.2 (hhigh p hall)]
    · exact perm_append_comm
    · rintro (hc | hc | hc)
      · exact ne_zero_of_present hentry.1 hc
      · exact hne hc
      · omega
  · have hskip : m'.mem (frameOf c) i = 0 ∨ m'.mem (frameOf c) i = m'.mem K i ∨ i = 959 :=
      (d.entry_of_not_private h o hi hp).imp_right .inl
    rw [releasedEntry, if_pos hskip, wanted, if_neg hp]
    exact List.Perm.refl _

theorem releasedEntries_perm : ∀ k i, i + k ≤ 958 →
    (releasedEntries m' (frameOf c) K 959 982015 k i).Perm
      ((wantedEntries m S K k i).flatMap (pageFor notes)) := by
  intro k
  induction k with
  | zero =>
    intro i _
    exact List.Perm.refl _
  | succ k ih =>
    intro i hi
    rw [wantedEntries, flatMap_append]
    exact (d.releasedEntry_perm h o hhigh (by omega)).append (ih (i + 1) (by omega))

theorem releasedEntry_self :
    releasedEntry m' (frameOf c) K 959 982015 958 = stalePages m (frameOf n) ++ [n] := by
  obtain ⟨-, hn, -⟩ := d.mem_all
  have hentry : Entry (selfEntry n) (frameOf n) := entry_table n
  have hlast : released m' (frameOf c) 982015 958 1 1023 = [] := by
    rw [released, if_pos (.inr (by decide))]
    rfl
  have hwords : released m' (frameOf c) 982015 958 1024 0 = stalePages m (frameOf n) := by
    rw [show 1024 = 1023 + 1 by decide, released_add, hlast, append_nil,
      d.released_self 1023 0 (by omega)]
    rfl
  rw [releasedEntry, hwords, d.selfTable, d.setup.location, if_neg,
    freedPage_eq (h.aligned n hn) hentry.2 (hhigh n hn)]
  rintro (hc | hc | hc)
  · exact ne_zero_of_present hentry.1 hc
  · exact d.ne_kernel h o hn hentry (by omega) hc
  · omega

/-- **What is freed**: what was taken but for the entries from `958` on, and what stale words refer
to. -/
theorem destroyed_perm : (destroyed m' K (userDirectory c)).Perm
      ((wantedEntries m S K 958 0).flatMap (pageFor notes) ++ stalePages m (frameOf n) ++
        [n, c]) := by
  obtain ⟨hc, -, -⟩ := d.mem_all
  have h959 : (pgdirIdxFromAddr userTablesVirtual).toNat = 959 := by decide
  have hpage : (pgNumFromAddr userDirVirtual).toNat = 982015 := by decide
  have hentry : releasedEntry m' (frameOf c) K 959 982015 959 = [] := by
    rw [releasedEntry, if_pos (.inr (.inr rfl))]
  have hself : releasedEntries m' (frameOf c) K 959 982015 2 958 =
      stalePages m (frameOf n) ++ [n] := by
    rw [releasedEntries, releasedEntries, releasedEntries, d.releasedEntry_self h o hhigh, hentry,
      append_nil, append_nil]
  rw [destroyed]
  rw [h959, hpage, show 960 = 958 + 2 by decide, releasedEntries_add, hself,
    d.setup.location, freedPage_eq (h.aligned c hc) rfl (hhigh c hc)]
  simp only [append_assoc]
  exact (d.releasedEntries_perm h o hhigh 958 0 (by omega)).append_right _

/-- **The stack is what it was** exactly if the clone was balanced. -/
theorem perm_iff_balanced :
    (free ++ destroyed m' K (userDirectory c)).Perm all ↔ Balanced m S K all := by
  obtain ⟨low, lost, hall, hpages, hlow, hlost⟩ := d.exists_order
  have hleaked : leakedPages m S K all = lost := by
    rw [leakedPages, hall, ← hlow, ← hlost, cons_append, drop_succ_cons,
      append_assoc, drop_left, take_left]
  have hfreed := (d.destroyed_perm h o hhigh).append_left free
  rw [← hpages] at hfreed
  have hbalanced : Balanced m S K all ↔ (stalePages m (frameOf n)).Perm lost := by
    rw [Balanced, d.selfTablePage_eq, hleaked]
    exact ⟨fun hb => hb n rfl, fun hb n' hn' => some.inj hn' ▸ hb⟩
  have hwhole := reverse_perm all
  rw [hall] at hwhole
  rw [hbalanced, ← Multiset.coe_eq_coe, ← Multiset.coe_eq_coe]
  rw [← Multiset.coe_eq_coe] at hfreed hwhole
  rw [hfreed, ← hwhole]
  simp only [← Multiset.coe_add, ← Multiset.cons_coe, ← Multiset.singleton_add,
    Multiset.coe_reverse]
  constructor
  · intro heq
    have hleft : (↑free + ↑low + {n} + {c} : Multiset UInt32) + ↑(stalePages m (frameOf n)) =
        (↑free + ↑low + {n} + {c} : Multiset UInt32) + ↑lost := by
      calc (↑free + ↑low + {n} + {c} : Multiset UInt32) + ↑(stalePages m (frameOf n))
          = ↑free + (↑low + ↑(stalePages m (frameOf n)) + ({n} + ({c} + 0))) := by abel
        _ = {c} + (↑low + ↑lost) + ({n} + ↑free) := heq
        _ = (↑free + ↑low + {n} + {c} : Multiset UInt32) + ↑lost := by abel
    exact add_left_cancel hleft
  · intro heq
    rw [heq]
    abel

end

/-! ### The clone is destroyed -/

theorem exists_entry (hi : i < 960) (hne : m'.mem (frameOf c) i ≠ 0)
    (hne' : m'.mem (frameOf c) i ≠ m'.mem K i) :
    ∃ p ∈ all, Entry (m'.mem (frameOf c) i) (frameOf p) := by
  obtain ⟨hc, hn, hnotes⟩ := d.mem_all
  rcases Nat.lt_or_ge i 958 with hlt | hge
  · by_cases hp : Private m S K i
    · obtain ⟨p, hmem⟩ := d.exists_table (by omega) hp
      rw [d.table i p hmem (by omega) (by omega)]
      exact ⟨p, hnotes _ hmem, entry_userEntry p⟩
    · rcases d.entry_of_not_private h o hlt hp with hz | heq
      · exact absurd hz hne
      · exact absurd heq hne'
  · rcases Nat.eq_or_lt_of_le hge with rfl | hgt
    · rw [d.selfTable]
      exact ⟨n, hn, entry_table n⟩
    · rw [show i = 959 by omega, d.selfPages]
      exact ⟨c, hc, entry_table c⟩

/-- **`destroy_directory`** of the clone, while there is room on the stack. -/
theorem destroyDirectory_eq

    (hroom : (free ++ destroyed m' K (userDirectory c)).length ≤
      1024 * used.length) :
    ∃ m'', destroyDirectory m' (userDirectory c) = some m'' ∧
      Ground m'' D T K w used (free ++ destroyed m' K (userDirectory c)) ∧
      ∀ f, (∀ q ∈ used, f ≠ frameOf q) → ∀ i, m''.mem f i = m'.mem f i := by
  have hrests : ∀ f, Rests m D T K w used f → ∀ i, m'.mem f i = m.mem f i := fun f hf =>
    d.mem_eq h (fun hp => o.page f hp (.inl hf)) (.inl hf)
  have hD := hrests D (.inl (.inl rfl))
  have hT := hrests T (.inl (.inr (.inl rfl)))
  have hfree : ∀ p ∈ all, ¬Rests m' D T K w used (frameOf p) := by
    intro p hp
    rw [rests_congr (hD _) (hD _)]
    exact (h.unused p hp).1
  obtain ⟨s, hs, -, -, -, hslot, -⟩ := h.slots
  obtain ⟨t, ht, -, -, -, hwindow, -⟩ := h.windows
  have htable : ∀ i < 960, m'.mem (frameOf c) i ≠ 0 → m'.mem (frameOf c) i ≠ m'.mem K i →
      present (m'.mem (frameOf c) i) = true ∧
        ¬Rests m' D T K w used (frameOf (m'.mem (frameOf c) i)) := by
    intro i hi hne hne'
    obtain ⟨p, hp, he⟩ := d.exists_entry h o hi hne hne'
    refine ⟨he.1, ?_⟩
    rw [he.2]
    exact hfree p hp
  generalize hdir : userDirectory c = dir at hroom ⊢
  obtain rfl : dir.physical = c := by rw [← hdir]
  obtain ⟨m'', hrun, hground, -, hmem⟩ := Paging.destroyDirectory_eq d.ground
    ⟨s, hs, (hT _).trans hslot⟩ ⟨t, ht, (hD _).trans hwindow⟩ (hfree _ d.mem_all.1) htable hroom
  exact ⟨m'', hrun, hground, hmem⟩

variable (y : Tidy m K S used all)

include y

theorem mapped_iff (hmem : ∀ f, (∀ q ∈ used, f ≠ frameOf q) → ∀ i, m''.mem f i = m'.mem f i)
    (f : ℕ) : (Mapped m'' S f ↔ Mapped m S f) ∧ (Mapped m'' K f ↔ Mapped m K f) := by
  have hsame : ∀ g, (∀ q ∈ used, g ≠ frameOf q) → ¬PrivatePage m S K g →
      Uses m S g ∨ Uses m K g → m''.mem g = m.mem g := by
    intro g hg hpage hu
    funext i
    rw [hmem g hg, d.mem_eq h hpage (.inr hu)]
  constructor
  · refine mapped_congr (hsame S ?_ ?_ (.inl (.inl rfl))) fun i hi hne => hsame _ ?_ ?_ ?_
    · exact fun q hq hc => (y.stack q hq).1 hc.symm
    · exact fun hp => o.page S hp (.inr (.inl rfl))
    · exact fun q hq hc => (y.stack q hq).2.1 ⟨i, hi, hne, hc.symm⟩
    · intro hp
      by_cases heq : m.mem S i = m.mem K i
      · exact y.page _ hp ⟨i, hi, heq ▸ hne, by rw [heq]⟩
      · exact o.page _ hp (.inr (.inr ⟨i, hi, ⟨hne, heq⟩, rfl⟩))
    · exact .inl (.inr (.inl ⟨i, hi, hne, rfl⟩))
  · refine mapped_congr (hsame K ?_ ?_ (.inr (.inl rfl))) fun i hi hne => hsame _ ?_ ?_ ?_
    · rintro q hq rfl
      exact h.ground.apart q hq (.inr (.inr (.inl rfl)))
    · exact fun hp => o.page K hp (.inl (.inl (.inr (.inr (.inl rfl)))))
    · exact fun q hq hc => (y.stack q hq).2.2 ⟨i, hi, hne, hc.symm⟩
    · exact fun hp => y.page _ hp ⟨i, hi, hne, rfl⟩
    · exact .inr (.inr (.inl ⟨i, hi, hne, rfl⟩))

/-- **A balanced clone leaves the state as it was.** -/
theorem restored (hb : Balanced m S K all) :
    ∃ m'', destroyDirectory m' (userDirectory c) = some m'' ∧
      Restored m'' D K S all := by
  have hperm := (d.perm_iff_balanced h o y.high).mpr hb
  obtain ⟨m'', hrun, hground, hmem⟩ := d.destroyDirectory_eq h o
    (by rw [hperm.length_eq]; exact h.ground.pile.room)
  refine ⟨m'', hrun, ⟨_, _, hground.pile, hperm⟩, ?_⟩
  intro f hf
  obtain ⟨p, hp, rfl⟩ := (hground.pile.freeFrame_iff hground.walks f).mp hf
  obtain ⟨hS, hK⟩ := d.mapped_iff h o y hmem (frameOf p)
  obtain ⟨-, hS', hK'⟩ := h.unused p (hperm.mem_iff.mp hp)
  rw [hS, hK]
  exact ⟨fun hc => hS' (.inr (.inr hc)), fun hc => hK' (.inr (.inr hc))⟩

theorem length_le (hroom : all.length + (stalePages m (frameOf n)).length ≤ 1024 * used.length) :
    (free ++ destroyed m' K (userDirectory c)).length ≤
      1024 * used.length := by
  obtain ⟨low, lost, hall, hpages, -, -⟩ := d.exists_order
  have hlength := congrArg List.length hall
  have hfreed := (d.destroyed_perm h o y.high).length_eq
  rw [← hpages] at hfreed
  simp only [length_reverse, length_append, length_cons, length_nil] at hlength hfreed
  rw [length_append]
  omega

theorem balanced (hroom : all.length + (stalePages m (frameOf n)).length ≤ 1024 * used.length)
    (hrun : destroyDirectory m' (userDirectory c) = some m'')
    (hr : Restored m'' D K S all) : Balanced m S K all := by
  obtain ⟨m2, hrun', hground, -⟩ := d.destroyDirectory_eq h o (d.length_le h o y hroom)
  cases hrun.symm.trans hrun'
  obtain ⟨used', free', hpile, hperm⟩ := hr.pages
  rw [← hground.pile.unique hpile] at hperm
  exact (d.perm_iff_balanced h o y.high).mp hperm

end

end Cloned

/-! ### The block of the heap -/

/-- **The block is live again after it was not**: what `kmalloc` returned is freed. -/
theorem ready_kfree {h h₁ : Heap} {ns : List NodePtr} {live : List Allocation}
    (hb : Ready h ns live)
    (hret : Returns (kmalloc · h pageDirectorySize) (h₁, ptr))
    (hptr : ptr ≠ 0) :
    ∃ h2, Returns (kfree · h₁ ptr) h2 ∧ Ready h2 ns live := by
  obtain ⟨runs, hruns, hmap⟩ := hb.runs
  obtain ⟨hn1, runs1, hruns1, hmap1⟩ := KHeap.runs_kmalloc hb.chain hb.spaced hruns hb.active
    hb.unlocked (.inl (by decide)) hret
  rw [if_neg hptr, hmap] at hmap1
  have hchain := hn1.chained hb.chain
  have hspaced := hn1.spaced hb.spaced
  have hfree := hn1.memLockFree.trans hb.unlockedFree
  have hmem : (⟨ptr, pageDirectorySize.toInt32⟩ : Allocation) ∈ runs1.map Prod.fst := by
    rw [hmap1]
    simp
  obtain ⟨h2, hres⟩ := KHeap.kfree_length hchain hspaced hruns1 hfree hmem
  obtain ⟨hn2, runs2, hruns2, hmap2⟩ := KHeap.runs_kfree hchain hspaced hruns1 hfree hmem ⟨_, hres⟩
  -- the block was not live before
  have hnew : (⟨ptr, pageDirectorySize.toInt32⟩ : Allocation) ∉ live := by
    intro hold
    have hnd := hruns1.nodup_ptr hspaced
    rw [hmap1, map_append, nodup_append] at hnd
    exact hnd.2.2 ptr (mem_map.mpr ⟨_, hold, rfl⟩) ptr (by simp) rfl
  refine ⟨h2, ⟨_, hres⟩, ?_, hn2.spaced hspaced, ⟨runs2, hruns2, ?_⟩, ?_, ?_, ?_⟩
  · exact hn2.chained hchain
  · rw [hmap2, hmap1, erase_append_right _ hnew]
    simp
  · exact hn2.heapActive.trans (hn1.heapActive.trans hb.active)
  · exact hn2.memLockAlloc.trans (hn1.memLockAlloc.trans hb.unlocked)
  · exact hn2.memLockFree.trans hfree

/-! ### Both calls -/

/-- **When a clone is undone**: the free pages and the live blocks are as before if the source is
undoable. If it only fails to be balanced they are not, with room on the stack for the pages freed
by mistake. -/
theorem restores_iff_undoable {h h₁ : Heap} {ns : List NodePtr}
    {live : List Allocation} {ptr : UInt32} {m : Machine} {D T K w : ℕ}
    {used all : List UInt32} {src : PageDirectory} (hb : Ready h ns live)
    (hmalloc : Returns (kmalloc · h pageDirectorySize) (h₁, ptr))
    (hptr : ptr ≠ 0) (hsource : Source m D T K w used all (frameOf src.physical))
    (hlen : (wantedEntries m (frameOf src.physical) K 1024 0).length + 2 ≤ all.length) :
    (Undoable m D T K w used all (frameOf src.physical) → Restores h ns live m D K all src) ∧
    (Own m D T K w used (frameOf src.physical) → Tidy m K (frameOf src.physical) used all →
      (∀ n, selfTablePage m (frameOf src.physical) K all = some n →
        all.length + (stalePages m (frameOf n)).length ≤ 1024 * used.length) →
      Restores h ns live m D K all src → Undoable m D T K w used all (frameOf src.physical)) := by
  constructor
  · rintro ⟨hown, htidy, hbal⟩
    obtain ⟨c, n, free, notes, m₁, hclone, d⟩ := hsource.cloneDirectory_eq hown rfl hlen
    obtain ⟨m2, hdestroy, hrestored⟩ := d.restored hsource hown htidy hbal
    obtain ⟨h2, ⟨fuel2, hkfree⟩, hready⟩ := ready_kfree hb hmalloc hptr
    obtain ⟨fuel, hkmalloc⟩ := hmalloc
    exact ⟨(ptr, userDirectory c), h₁, m₁, h2, m2, ⟨fuel, by simp [createClone, hkmalloc, hclone]⟩,
      ⟨fuel2, by simp [deleteClone, hdestroy, hkfree]⟩, hready, hrestored⟩
  · intro hown htidy hroom hrestores
    obtain ⟨c, n, free, notes, m₁, hclone, d⟩ := hsource.cloneDirectory_eq hown rfl hlen
    obtain ⟨clone, h', m', h2, m2, ⟨fuel, hcreate⟩, ⟨fuel2, hdelete⟩, -, hrestored⟩ := hrestores
    simp only [createClone, deleteClone, bind_eq_bind, bind_eq_some_iff] at hcreate hdelete
    obtain ⟨_, -, _, hclone', heq⟩ := hcreate
    obtain ⟨_, hdestroy, _, -, heq'⟩ := hdelete
    cases hclone.symm.trans hclone'
    cases heq
    cases heq'
    exact ⟨hown, htidy,
      d.balanced hsource hown htidy (hroom n d.selfTablePage_eq) hdestroy hrestored⟩

/-! ### A sample -/

theorem sameButFree_cloneMachine (stale : UInt32) :
    SameButFree (cloneMachine 0) (cloneMachine stale) clonePool := by
  refine ⟨sameSetup_mem, rfl, fun f hf => ?_⟩
  have h48 : f ≠ 48 := hf 0x30000 (by decide)
  have h49 : f ≠ 49 := hf 0x31000 (by decide)
  have h50 : f ≠ 50 := hf 0x32000 (by decide)
  have h51 : f ≠ 51 := hf 0x33000 (by decide)
  have h52 : f ≠ 52 := hf 0x34000 (by decide)
  funext i
  simp only [cloneMachine]
  rw [if_neg (show ¬(48 ≤ f ∧ f < 53) by omega), if_neg (show ¬(48 ≤ f ∧ f < 53) by omega)]

theorem wantedEntries_self (m : Machine) (K : ℕ) : ∀ n i, wantedEntries m K K n i = [] := by
  intro n
  induction n with
  | zero =>
    intro i
    rfl
  | succ n ih =>
    intro i
    rw [wantedEntries, wanted, if_neg Begun.not_private_self, ih]
    rfl

theorem own_kernelDirectory (stale : UInt32) :
    Own (cloneMachine stale) 16 18 16 1023 [0x14000] 16 where
  current _ := rfl
  page := by
    rintro f ⟨i, -, hp, -⟩
    exact absurd rfl hp.2

theorem tidy_cloneMachine (stale : UInt32) :
    Tidy (cloneMachine stale) 16 16 [0x14000] clonePool where
  high := by
    show ∀ p ∈ clonePool, (0x13000 : UInt32) ≤ p
    exact forall_mem_clonePool (by decide)
  stack := by
    have htabled : ¬Tabled (cloneMachine stale) 16 20 := by
      rintro ⟨i, hi, hne, hf⟩
      have hmem := mem_cloneWords (by decide) hne
      have hall : ∀ a ∈ cloneWords, a.1 = 16 → 20 ≠ frameOf ((cloneMachine 0).mem 16 a.2) := by
        decide
      exact hall (16, i) hmem rfl hf
    intro q hq
    obtain rfl := mem_singleton.mp hq
    exact ⟨by decide, htabled, htabled⟩
  page := by
    rintro f ⟨i, -, hp, -⟩
    exact absurd rfl hp.2

/-- With zeros in the free pages everything is as before; with a word that refers to the stack it is
not. -/
theorem restores_kernelDirectory : Restores rowHeap rowNodes [] (cloneMachine 0) 16 16 clonePool
      (cloneMachine 0).kernelDirectory ∧
    ¬Restores rowHeap rowNodes [] (cloneMachine 0x14003) 16 16 clonePool
      (cloneMachine 0x14003).kernelDirectory := by
  have hmalloc : Returns (kmalloc · rowHeap pageDirectorySize)
      (((kmalloc 4 rowHeap pageDirectorySize).getD (rowHeap, 0)).1, 0x1400) :=
    ⟨4, rfl⟩
  have hsource : ∀ stale, Source (cloneMachine stale) 16 18 16 1023 [0x14000] clonePool 16 :=
    fun stale => (sameButFree_cloneMachine stale).source (source_cloneMachine (.inl rfl))
  have hpage : ∀ stale, selfTablePage (cloneMachine stale) 16 16 clonePool = some 0x33000 := by
    intro stale
    rw [selfTablePage, wantedEntries_self]
    rfl
  have hlost : ∀ stale, leakedPages (cloneMachine stale) 16 16 clonePool = [] := by
    intro stale
    rw [leakedPages, wantedEntries_self]
    rfl
  have hlen : ∀ stale, (wantedEntries (cloneMachine stale) 16 16 1024 0).length + 2 ≤
      clonePool.length := by
    intro stale
    rw [wantedEntries_self]
    decide
  have hzero : stalePages (cloneMachine 0) (frameOf 0x33000) = [] := by decide +kernel
  have hstale : stalePages (cloneMachine 0x14003) (frameOf 0x33000) = [0x14000] := by
    decide +kernel
  have hS : ∀ stale, frameOf (cloneMachine stale).kernelDirectory.physical = 16 := by
    intro stale
    show frameOf 0x10000 = 16
    decide
  have hiff := fun stale => restores_iff_undoable
    (Ready.of_reachable KHeap.initial_rowHeap .start rfl rfl rfl) hmalloc (by decide)
    (hS stale ▸ hsource stale) (hS stale ▸ hlen stale)
  simp only [hS] at hiff
  refine ⟨(hiff 0).1 ⟨own_kernelDirectory 0, tidy_cloneMachine 0, ?_⟩, fun hrestores => ?_⟩
  · intro n hn
    cases (hpage 0).symm.trans hn
    rw [hlost, hzero]
  · have hundoable := (hiff 0x14003).2 (own_kernelDirectory _) (tidy_cloneMachine _) (by
      intro n hn
      cases (hpage 0x14003).symm.trans hn
      rw [hstale]
      decide) hrestores
    have hperm := hundoable.balanced 0x33000 (hpage 0x14003)
    rw [hstale] at hperm
    exact absurd hperm.length_eq (by decide)

/-- **A page of the stack itself is freed**: the page for `USER_DIR_VIRTUAL` still refers to it. -/
theorem not_restored_cloneMachine : ∃ dir m₁ m₂,
    cloneDirectory (cloneMachine 0x14003) (cloneMachine 0x14003).kernelDirectory = some (dir, m₁) ∧
      destroyDirectory m₁ dir = some m₂ ∧ FreeFrame m₂ 20 ∧ Mapped m₂ 16 20 ∧
      ¬Restored m₂ 16 16 16 clonePool := by
  have hsource : Source (cloneMachine 0x14003) 16 18 16 1023 [0x14000] clonePool 16 :=
    (sameButFree_cloneMachine 0x14003).source (source_cloneMachine (.inl rfl))
  have hown := own_kernelDirectory 0x14003
  have htidy := tidy_cloneMachine 0x14003
  have hsrc : frameOf (cloneMachine 0x14003).kernelDirectory.physical = 16 := rfl
  obtain ⟨c, n, free, notes, m₁, hclone, d⟩ := hsource.cloneDirectory_eq hown hsrc (by
    rw [wantedEntries_self]
    decide)
  have hn : n = 0x33000 := by
    have hpage := d.selfTablePage_eq
    rw [selfTablePage, wantedEntries_self] at hpage
    exact (some.inj hpage).symm
  have hstale : stalePages (cloneMachine 0x14003) (frameOf n) = [0x14000] := by
    rw [hn]
    decide +kernel
  obtain ⟨m₂, hdestroy, hground, hmem⟩ := d.destroyDirectory_eq hsource hown
    (d.length_le hsource hown htidy (by rw [hstale]; decide))
  have hfree : FreeFrame m₂ 20 := by
    refine (hground.pile.freeFrame_iff hground.walks 20).mpr ⟨0x14000, ?_, rfl⟩
    refine mem_append_right _ ((d.destroyed_perm hsource hown htidy.high).mem_iff.mpr ?_)
    rw [hstale]
    simp
  have hmapped : Mapped m₂ 16 20 :=
    (d.mapped_iff hsource hown htidy hmem 20).2.mpr
      ⟨1021, by decide, by decide, 1023, by decide, by decide, by decide⟩
  exact ⟨_, m₁, m₂, hclone, hdestroy, hfree, hmapped, fun hr => (hr.unmapped 20 hfree).2 hmapped⟩

end AthenX.Paging
