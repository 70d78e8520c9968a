import AthenX.Paging.PageStack

/-!
# Running out of pages

`pmm_alloc_page` notices that there is no free page left, writes a message, and pops all the same.
`PageStore` is the allocator as it is meant to be, which returns `0` and changes nothing. The code
follows it up to the first call that finds no page, and no further.
-/

namespace AthenX.Paging

open List Option

/-! ### The allocator as it is meant -/

/-- A call of the allocator. -/
inductive Call where
  /-- `pmm_alloc_page()`. -/
  | alloc
  /-- `pmm_free_page(p)`. -/
  | free (p : UInt32)
  deriving DecidableEq, Repr

/-- The pages the stack is made of and the free pages, both from the bottom. -/
structure PageStore where
  used : List UInt32
  free : List UInt32
  deriving DecidableEq, Repr

variable {low p : UInt32} {s : PageStore} {m : Machine}

namespace PageStore

/-- The page the next allocation returns, `0` if there is none. -/
def next (s : PageStore) : UInt32 := s.free.getLastD 0

/-- The store after a call. A page that finds the stack full becomes part of it. -/
def after (low : UInt32) (s : PageStore) : Call → PageStore
  | .alloc  => { s with free := s.free.dropLast }
  | .free p =>
      if p &&& pageAddrMask < low then s
      else if s.free.length = 1024 * s.used.length then
        { s with used := s.used ++ [p &&& pageAddrMask] }
      else { s with free := s.free ++ [p &&& pageAddrMask] }

/-- The page that is freed is neither free nor part of the stack. -/
def Lawful (s : PageStore) : Call → Prop
  | .alloc  => True
  | .free p => p &&& pageAddrMask ∉ s.used ++ s.free

/-- There is a page for the call, if it needs one. -/
def Serves (s : PageStore) : Call → Prop
  | .alloc  => s.free ≠ []
  | .free _ => True

/-- `P` holds of each of the calls, in the state it is made in. -/
def Along (low : UInt32) (P : PageStore → Call → Prop) : PageStore → List Call → Prop
  | _, []         => True
  | s, c :: calls => P s c ∧ Along low P (s.after low c) calls

instance decidableLawful (s : PageStore) : ∀ c, Decidable (s.Lawful c)
  | .alloc  => inferInstanceAs (Decidable True)
  | .free p => inferInstanceAs (Decidable (p &&& pageAddrMask ∉ s.used ++ s.free))

instance decidableServes (s : PageStore) : ∀ c, Decidable (s.Serves c)
  | .alloc  => inferInstanceAs (Decidable (s.free ≠ []))
  | .free _ => inferInstanceAs (Decidable True)

instance decidableAlong (low : UInt32) (P : PageStore → Call → Prop)
    [∀ s c, Decidable (P s c)] : ∀ s calls, Decidable (Along low P s calls)
  | _, []         => inferInstanceAs (Decidable True)
  | s, c :: calls =>
      have := decidableAlong low P (s.after low c) calls
      inferInstanceAs (Decidable (P s c ∧ Along low P (s.after low c) calls))

end PageStore

/-! ### The machine and the store -/

/-- The stack pointer and the words of the stack are as the store says. -/
structure Agrees (m : Machine) (s : PageStore) : Prop where
  loc : m.pmmStackLoc.toNat = pmmStackStart.toNat + 4 * s.free.length
  content : ∀ (va : UInt32) (j : ℕ) (p : UInt32), va.toNat = pmmStackStart.toNat + 4 * j →
    s.free[j]? = some p → m.load va = some p

/-- The machine answers the calls as the store does, and agrees with it all along. -/
def Follows (low : UInt32) : Machine → PageStore → List Call → Prop
  | m, s, []               => Agrees m s
  | m, s, .alloc :: calls  => Agrees m s ∧
      ∃ m', pmmAllocPage m = some (s.next, m') ∧ Follows low m' (s.after low .alloc) calls
  | m, s, .free p :: calls => Agrees m s ∧
      ∃ m', pmmFreePage m p = some m' ∧ Follows low m' (s.after low (.free p)) calls

theorem Follows.agrees {calls : List Call} (h : Follows low m s calls) : Agrees m s := by
  match calls, h with
  | [],              h => exact h
  | .alloc :: _,     h => exact h.1
  | .free _ :: _,    h => exact h.1

theorem eq_of_pmmAllocPage {m' : Machine} (ha : m.pmmPagingActive = true)
    (h : pmmAllocPage m = some (p, m')) : m' = m.popped := by
  rw [pmmAllocPage, if_pos ha] at h
  obtain ⟨q, -, hq⟩ := bind_eq_some_iff.mp h
  exact (Prod.mk.inj (some.inj hq)).2.symm

section

variable {D : ℕ} {used free : List UInt32}

theorem Holds.agrees (h : Holds m D used free) : Agrees m ⟨used, free⟩ where
  loc := h.loc
  content := fun _ _ _ hva hp => h.pile.load_slot h.layout.selfMapped.walks hva hp

/-- A page that the stack does not have is not followed: the pointer leaves the stack. -/
theorem Holds.not_follows (h : Holds m D used []) (calls : List Call) :
    ¬Follows low m ⟨used, []⟩ (.alloc :: calls) := by
  rintro ⟨hagrees, m', hm', hrest⟩
  obtain rfl := eq_of_pmmAllocPage h.layout.active hm'
  have hloc : (m.pmmStackLoc - 4).toNat = m.pmmStackLoc.toNat :=
    hrest.agrees.loc.trans hagrees.loc.symm
  rw [UInt32.toNat_sub, show (4 : UInt32).toNat = 4 by decide] at hloc
  omega

theorem Holds.free_after (h : Holds m D used free) (hlow : m.pmmLocation = low)
    (hp : p &&& pageAddrMask ∉ used ++ free) :
    ∃ m' used' free', pmmFreePage m p = some m' ∧ m'.pmmLocation = low ∧
      PageStore.after low ⟨used, free⟩ (.free p) = ⟨used', free'⟩ ∧ Holds m' D used' free' := by
  subst hlow
  by_cases hp' : p &&& pageAddrMask < m.pmmLocation
  · exact ⟨m, used, free, by simp [pmmFreePage, hp'], rfl, if_pos hp', h⟩
  obtain ⟨m', hm', hloc, h'⟩ := h.freePage hp hp'
  by_cases hfull : m.pmmStackMax ≤ m.pmmStackLoc
  · rw [if_pos hfull] at h'
    refine ⟨m', _, _, hm', hloc, ?_, h'⟩
    simp [PageStore.after, if_neg hp', if_pos (h.full_iff.mp hfull)]
  · rw [if_neg hfull] at h'
    refine ⟨m', _, _, hm', hloc, ?_, h'.1⟩
    simp [PageStore.after, if_neg hp', if_neg (mt h.full_iff.mpr hfull)]

/-- **The calls, one after the other.** `Holds` carries the machine through those that are served.
-/
theorem Holds.follows_iff (calls : List Call) : ∀ {m : Machine} {used free : List UInt32},
    Holds m D used free → m.pmmLocation = low →
    PageStore.Along low PageStore.Lawful ⟨used, free⟩ calls →
    (Follows low m ⟨used, free⟩ calls ↔
      PageStore.Along low PageStore.Serves ⟨used, free⟩ calls) := by
  induction calls with
  | nil => exact fun h _ _ => iff_of_true h.agrees trivial
  | cons c calls ih =>
    rintro m used free h hlow ⟨hc, hcalls⟩
    cases c with
    | alloc =>
      rcases eq_nil_or_concat free with rfl | ⟨rest, p, rfl⟩
      · exact iff_of_false (h.not_follows calls) fun hs => hs.1 rfl
      rw [concat_eq_append] at h hcalls ⊢
      have hafter : PageStore.after low ⟨used, rest ++ [p]⟩ .alloc = ⟨used, rest⟩ := by
        simp [PageStore.after]
      have hnext : PageStore.next ⟨used, rest ++ [p]⟩ = p := by
        simp [PageStore.next]
      obtain ⟨m', hm', h'⟩ := h.pop
      have hlow' : m'.pmmLocation = low := by
        rw [eq_of_pmmAllocPage h.layout.active hm']
        exact hlow
      rw [hafter] at hcalls
      have hrest := ih h' hlow' hcalls
      simp only [PageStore.Along, Follows, hafter, hnext, ← hrest]
      constructor
      · rintro ⟨-, m'', hm'', hfollows⟩
        cases hm'.symm.trans hm''
        exact ⟨by simp [PageStore.Serves], hfollows⟩
      · rintro ⟨-, hfollows⟩
        exact ⟨h.agrees, m', hm', hfollows⟩
    | free p =>
      obtain ⟨m', used', free', hm', hlow', hafter, h'⟩ := h.free_after hlow hc
      rw [hafter] at hcalls
      have hrest := ih h' hlow' hcalls
      simp only [PageStore.Along, Follows, hafter, ← hrest]
      constructor
      · rintro ⟨-, m'', hm'', hfollows⟩
        cases hm'.symm.trans hm''
        exact ⟨trivial, hfollows⟩
      · rintro ⟨-, hfollows⟩
        exact ⟨h.agrees, m', hm', hfollows⟩

end

/-- **The allocator recovers from running out of pages only as long as it does not run out**: it
follows the store if and only if no allocation finds the stack empty. -/
theorem follows_iff_serves {m₀ : Machine} {D : ℕ} (h₀ : PagingStarted m₀ D) (calls : List Call)
    (hlaw : PageStore.Along m₀.pmmLocation PageStore.Lawful ⟨[], []⟩ calls) :
    Follows m₀.pmmLocation m₀ ⟨[], []⟩ calls ↔
      PageStore.Along m₀.pmmLocation PageStore.Serves ⟨[], []⟩ calls :=
  h₀.holds.follows_iff calls rfl hlaw

/-- The first page freed extends the stack, the second one is handed out again. -/
theorem follows_startedMachine :
    PagingStarted startedMachine 16 ∧
    PageStore.Along 0x13000 PageStore.Lawful ⟨[], []⟩ [.free 0x20000, .free 0x21000, .alloc] ∧
    Follows 0x13000 startedMachine ⟨[], []⟩ [.free 0x20000, .free 0x21000, .alloc] := by
  have hlaw : PageStore.Along 0x13000 PageStore.Lawful ⟨[], []⟩
      [.free 0x20000, .free 0x21000, .alloc] := by decide
  refine ⟨pagingStarted_startedMachine, hlaw, ?_⟩
  exact (follows_iff_serves pagingStarted_startedMachine _ hlaw).mpr (by decide)

/-- One more allocation does not return `0`, it does not return. -/
theorem not_follows_startedMachine :
    PagingStarted startedMachine 16 ∧
    PageStore.Along 0x13000 PageStore.Lawful ⟨[], []⟩
      [.free 0x20000, .free 0x21000, .alloc, .alloc] ∧
    ¬Follows 0x13000 startedMachine ⟨[], []⟩ [.free 0x20000, .free 0x21000, .alloc, .alloc] ∧
    ∃ m₁ m₂ m₃, pmmFreePage startedMachine 0x20000 = some m₁ ∧
      pmmFreePage m₁ 0x21000 = some m₂ ∧ pmmAllocPage m₂ = some (0x21000, m₃) ∧
      m₃.pmmStackLoc = pmmStackStart ∧ pmmAllocPage m₃ = none := by
  have hlaw : PageStore.Along 0x13000 PageStore.Lawful ⟨[], []⟩
      [.free 0x20000, .free 0x21000, .alloc, .alloc] := by decide
  have hrun : ((pmmFreePage startedMachine 0x20000).bind fun m₁ =>
      (pmmFreePage m₁ 0x21000).bind fun m₂ => (pmmAllocPage m₂).map fun r =>
        (r.1, r.2.pmmStackLoc, (pmmAllocPage r.2).isNone)) =
      some (0x21000, pmmStackStart, true) := by decide
  obtain ⟨m₁, h1, hrest⟩ := bind_eq_some_iff.mp hrun
  obtain ⟨m₂, h2, hrest⟩ := bind_eq_some_iff.mp hrest
  obtain ⟨⟨p, m₃⟩, h3, hvals⟩ := map_eq_some_iff.mp hrest
  simp only [Prod.mk.injEq] at hvals
  obtain ⟨rfl, hloc, hnone⟩ := hvals
  refine ⟨pagingStarted_startedMachine, hlaw, ?_, m₁, m₂, m₃, h1, h2, h3, hloc,
    isNone_iff_eq_none.mp hnone⟩
  exact fun hf =>
    absurd ((pagingStarted_startedMachine.holds.follows_iff _ rfl hlaw).mp hf) (by decide)

end AthenX.Paging
