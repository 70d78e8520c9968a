import AthenX.Paging.Mount

/-!
# Mounts and cached translations

The processor caches the translations of pages. `unmap` invalidates that of its page, so
`umount_directory` invalidates the slot of the mount; nothing invalidates the pages of its window.
If one of them is still cached when the next directory is mounted there, the window shows the page
table of the earlier one.

The functions themselves use the pages of the current directory and of the page table of the slots,
whose translations never change.
-/

namespace AthenX.Paging

open Function Option

/-! ### The processor -/

/-- The frame that the tables have for a page. -/
def Machine.walk (m : Machine) (p : ℕ) : Option ℕ :=
  let pde := m.mem (frameOf m.cr3) (p / 1024)
  let pte := m.mem (frameOf pde) (p % 1024)
  if present pde ∧ present pte then some (frameOf pte) else none

/-- A machine, with the frames that are cached for pages. -/
structure Cached where
  machine : Machine
  tlb : ℕ → Option ℕ

namespace Cached

/-- The frame and the word an address stands for. -/
def translate (x : Cached) (va : UInt32) : Option (ℕ × ℕ) :=
  match x.tlb (frameOf va) with
  | some f => some (f, wordOf va)
  | none => x.machine.translate va

/-- A frame is cached for a page. -/
def fill (x : Cached) (p f : ℕ) : Cached := ⟨x.machine, update x.tlb p (some f)⟩

/-- `invlpg` for a page. -/
def invlpg (x : Cached) (p : ℕ) : Cached := ⟨x.machine, update x.tlb p none⟩

/-- The frame that is cached for a page, if any, is that of the tables. -/
def Fresh (x : Cached) (p : ℕ) : Prop := ∀ f, x.tlb p = some f → x.machine.walk p = some f

end Cached

/-- The tables are asked for word `i` of frame `f` to translate page `p`. -/
def Reads (m : Machine) (p f i : ℕ) : Prop :=
  f = frameOf m.cr3 ∧ i = p / 1024 ∨
    present (m.mem (frameOf m.cr3) (p / 1024)) ∧
      f = frameOf (m.mem (frameOf m.cr3) (p / 1024)) ∧ i = p % 1024

/-- Page `p` is that of the slot of a mount, or one of its window. -/
def Mount.Has (mt : Mount) (p : ℕ) : Prop :=
  p = mt.directory.toNat / 4096 ∨ p / 1024 = mt.pages.toNat / 4194304

/-- For no page of a live mount that is cached the tables are asked for one of the words that are
written for `mt`. -/
def Undisturbed (x : Cached) (D T : ℕ) (mt : Mount) (live : List (Mount × PageDirectory)) : Prop :=
  ∀ y ∈ live, ∀ p, y.1.Has p → x.tlb p ≠ none →
    ¬Reads x.machine p T (mt.directory.toNat / 4096 % 1024) ∧
      ¬Reads x.machine p D (mt.pages.toNat / 4194304)

/-- Runs of the two functions, where the processor may cache and drop translations at any time. A
careful one leaves the live mounts undisturbed. -/
inductive CachedRun (D T : ℕ) (careful : Prop) (x₀ : Cached) :
    Cached → List (Mount × PageDirectory) → Prop
  | start : CachedRun D T careful x₀ x₀ []
  | fill {x : Cached} {live : List (Mount × PageDirectory)} {p f : ℕ} :
      CachedRun D T careful x₀ x live → x.machine.walk p = some f →
      CachedRun D T careful x₀ (x.fill p f) live
  | drop {x : Cached} {live : List (Mount × PageDirectory)} (p : ℕ) :
      CachedRun D T careful x₀ x live → CachedRun D T careful x₀ (x.invlpg p) live
  | mount {x : Cached} {m : Machine} {live : List (Mount × PageDirectory)} {mt : Mount}
      {dir : PageDirectory} : CachedRun D T careful x₀ x live → live.length < 4 →
      mountDirectory x.machine dir = some (mt, m) →
      (careful → Undisturbed x D T mt ((mt, dir) :: live)) →
      CachedRun D T careful x₀ ⟨m, x.tlb⟩ ((mt, dir) :: live)
  | umount {x : Cached} {m : Machine} {l₁ l₂ : List (Mount × PageDirectory)} {mt : Mount}
      {dir : PageDirectory} : CachedRun D T careful x₀ x (l₁ ++ (mt, dir) :: l₂) →
      umountDirectory x.machine mt = some m →
      (careful → Undisturbed x D T mt (l₁ ++ l₂)) →
      CachedRun D T careful x₀ (Cached.invlpg ⟨m, x.tlb⟩ (frameOf mt.directory)) (l₁ ++ l₂)

variable {m m' m₀ : Machine} {x x₀ : Cached} {D T w p f : ℕ} {va : UInt32} {mt : Mount}
  {careful : Prop} {live : List (Mount × PageDirectory)}

/-! ### Translations -/

theorem translate_eq_walk (hp : m.pagingEnabled = true) (va : UInt32) :
    m.translate va = (m.walk (frameOf va)).map fun f => (f, wordOf va) := by
  have hdir : va.toNat / 4096 / 1024 = va.toNat / 4194304 := by omega
  simp only [Machine.translate, Machine.walk, hp, if_true, toNat_pgdirIdx, toNat_pgtabIdx,
    frameOf_eq va, hdir]
  split <;> split <;> simp_all

theorem Cached.Fresh.translate (h : x.Fresh (frameOf va)) (hp : x.machine.pagingEnabled = true) :
    x.translate va = x.machine.translate va := by
  unfold Cached.translate
  split
  · next f hf => rw [translate_eq_walk hp, h f hf, map_some]
  · rfl

theorem walk_congr (hcr3 : m'.cr3 = m.cr3) (hmem : ∀ f i, Reads m p f i → m'.mem f i = m.mem f i) :
    m'.walk p = m.walk p := by
  have hpde := hmem _ _ (.inl ⟨rfl, rfl⟩)
  simp only [Machine.walk, hcr3, hpde]
  by_cases hp : present (m.mem (frameOf m.cr3) (p / 1024)) = true
  · rw [hmem _ _ (.inr ⟨hp, rfl, rfl⟩)]
  · simp [hp]

/-! ### Pages that stay fresh -/

/-- A page of the current directory, or of the page table of the slots. -/
def OwnPage (w p : ℕ) : Prop := p = w * 1024 - 1 ∨ p = w * 1024 + 1021 ∨ p = 1023 * 1024 + 1021

theorem walk_ownPage (h₀ : Current m₀ D T w) (h : Mounted m₀ m D T live) (hp : OwnPage w p) :
    m.walk p = m₀.walk p := by
  refine walk_congr h.regs.cr3 fun f i hr => h.mem f i ?_
  have hne := h₀.slots_ne
  have hw := h₀.window
  obtain ⟨M, hM, -⟩ := h₀.mount
  obtain ⟨K, -, hK, hTK, -⟩ := h₀.kernel
  rw [Reads, h₀.cr3] at hr
  rintro (⟨rfl, hi, hi'⟩ | ⟨rfl, hi, hi'⟩)
  · rcases hr with ⟨hc, -⟩ | ⟨-, hf, rfl⟩
    · exact hne hc
    rcases hp with rfl | rfl | rfl
    · omega
    · rw [show (w * 1024 + 1021) / 1024 = w by omega, h₀.self.2] at hf
      exact hne hf
    · rw [show (1023 * 1024 + 1021) / 1024 = 1023 from rfl, hK.2] at hf
      exact hTK hf
  · unfold OwnPage at hp
    rcases hr with ⟨-, rfl⟩ | ⟨-, -, rfl⟩ <;> omega

theorem toNat_mountAt {s t : ℕ} (hs : s < 4) (ht : t < 8) :
    (mountAt s t).directory.toNat / 4096 = 1046523 + s ∧
      (mountAt s t).pages.toNat / 4194304 = 1012 + t := by
  rw [mountAt, toNat_slotAddr hs, toNat_windowAddr ht]
  omega

/-- For the pages of a mount point the tables are asked for its words. -/
theorem Mount.Has.reads {s t : ℕ} (hp : (mountAt s t).Has p) (h : Current m D T w) (hs : s < 4)
    (ht : t < 8) : Reads m p T ((mountAt s t).directory.toNat / 4096 % 1024) ∨
      Reads m p D ((mountAt s t).pages.toNat / 4194304) := by
  obtain ⟨hslot, hwindow⟩ := toNat_mountAt hs ht
  rw [Mount.Has, hslot, hwindow] at hp
  rw [hslot, hwindow]
  rcases hp with rfl | hp
  · refine .inl (.inr ?_)
    rw [h.cr3, show (1046523 + s) / 1024 = 1021 by omega]
    exact ⟨h.slots.1, h.slots.2.symm, rfl⟩
  · exact .inr (.inl ⟨h.cr3.symm, hp.symm⟩)

/-- What a call does to the cached pages of a mount: nothing, if they are undisturbed. -/
theorem Cached.Fresh.step {s t : ℕ} {y : Mount × PageDirectory} (h : x.Fresh p)
    (hcr3 : m'.cr3 = x.machine.cr3)
    (hmem : ∀ f i, ¬(f = T ∧ i = 1019 + s) → ¬(f = D ∧ i = 1012 + t) →
      m'.mem f i = x.machine.mem f i)
    (hs : s < 4) (ht : t < 8) (hund : Undisturbed x D T (mountAt s t) live) (hy : y ∈ live)
    (hp : y.1.Has p) : Cached.Fresh ⟨m', x.tlb⟩ p := by
  intro f hf
  have hf' : x.tlb p = some f := hf
  obtain ⟨hT, hD⟩ := hund y hy p hp (by rw [hf']; exact some_ne_none f)
  obtain ⟨hslot, hwindow⟩ := toNat_mountAt hs ht
  rw [hslot, show (1046523 + s) % 1024 = 1019 + s by omega] at hT
  rw [hwindow] at hD
  rw [← h f hf']
  refine walk_congr hcr3 fun f i hr => hmem f i ?_ ?_
  · rintro ⟨rfl, rfl⟩
    exact hT hr
  · rintro ⟨rfl, rfl⟩
    exact hD hr

theorem CachedRun.mountRun (h : CachedRun D T careful x₀ x live) :
    MountRun x₀.machine x.machine live := by
  induction h with
  | start => exact .start
  | fill _ _ ih => exact ih
  | drop p _ ih => exact ih
  | mount _ hlt hm _ ih => exact .mount ih hlt hm
  | umount _ hm _ ih => exact .umount ih hm

theorem Cached.Fresh.fill {q g : ℕ} (h : x.Fresh p) (hg : x.machine.walk q = some g) :
    (x.fill q g).Fresh p := by
  intro f hf
  change update x.tlb q (some g) p = some f at hf
  rcases eq_or_ne p q with rfl | hne
  · rw [update_self] at hf
    cases hf
    exact hg
  · rw [update_of_ne hne] at hf
    exact h f hf

theorem Cached.Fresh.invlpg (h : x.Fresh p) (q : ℕ) : (x.invlpg q).Fresh p := by
  intro f hf
  change update x.tlb q none p = some f at hf
  rcases eq_or_ne p q with rfl | hne
  · rw [update_self] at hf
    cases hf
  · rw [update_of_ne hne] at hf
    exact h f hf

theorem Cached.Fresh.congr (h : x.Fresh p) (hwalk : m.walk p = x.machine.walk p) :
    Cached.Fresh ⟨m, x.tlb⟩ p :=
  fun f hf => hwalk.trans (h f hf)

section

variable (h₀ : Current x₀.machine D T w) (hslot : ∀ s < 4, x₀.machine.mem T (1019 + s) = 0)
  (hwindow : ∀ t < 8, x₀.machine.mem D (1012 + t) = 0) (hfresh : ∀ p, x₀.Fresh p)

include h₀ hslot hwindow

theorem CachedRun.mounted (h : CachedRun D T careful x₀ x live) :
    Mounted x₀.machine x.machine D T live :=
  mounted_of_run h₀ hslot hwindow h.mountRun

include hfresh

/-- **What is cached**: nothing stale for the pages that the functions use, nor for those of a live
mount in a careful run. -/
theorem CachedRun.fresh (h : CachedRun D T careful x₀ x live) :
    ∀ p, OwnPage w p ∨ careful ∧ (∃ y ∈ live, y.1.Has p) → x.Fresh p := by
  induction h with
  | start => exact fun p _ => hfresh p
  | fill _ hg ih => exact fun p hp => (ih p hp).fill hg
  | drop q _ ih => exact fun p hp => (ih p hp).invlpg q
  | @mount x m live mt dir hrun hlt hm hund ih =>
    have hbefore := hrun.mounted h₀ hslot hwindow
    have hafter := (CachedRun.mount hrun hlt hm hund).mounted h₀ hslot hwindow
    obtain ⟨s, hs, t, ht, -, -, heq⟩ := hbefore.mountDirectory_eq h₀ hlt dir
    cases hm.symm.trans heq
    rintro p (hown | ⟨hcareful, y, hy, hp⟩)
    · exact (ih p (.inl hown)).congr
        ((walk_ownPage h₀ hafter hown).trans (walk_ownPage h₀ hbefore hown).symm)
    rcases List.mem_cons.mp hy with rfl | hold
    · -- no page of the new mount is cached
      intro f hf
      have hcached : x.tlb p = some f := hf
      have hread := hund hcareful _ hy p hp (by rw [hcached]; exact some_ne_none f)
      exact absurd (hp.reads (hbefore.current h₀) hs ht) (not_or.mpr hread)
    · exact (ih p (.inr ⟨hcareful, y, hold, hp⟩)).step rfl (fun f i => mounted_other dir) hs ht
        (hund hcareful) hy hp
  | @umount x m l₁ l₂ mt dir hrun hm hund ih =>
    have hbefore := hrun.mounted h₀ hslot hwindow
    have hafter := (CachedRun.umount hrun hm hund).mounted h₀ hslot hwindow
    obtain ⟨s, hs, t, ht, hmt, -, -⟩ := hbefore.placed (x := (mt, dir)) (by simp)
    obtain rfl : mt = mountAt s t := hmt
    rw [umountDirectory_eq (hbefore.current h₀) hs ht] at hm
    cases hm
    rintro p (hown | ⟨hcareful, y, hy, hp⟩)
    · exact ((ih p (.inl hown)).congr
        ((walk_ownPage h₀ hafter hown).trans (walk_ownPage h₀ hbefore hown).symm)).invlpg _
    have hold : y ∈ l₁ ++ (mountAt s t, dir) :: l₂ := by
      rcases List.mem_append.mp hy with hy | hy <;> simp [hy]
    refine Cached.Fresh.invlpg ?_ _
    refine (ih p (.inr ⟨hcareful, y, hold, hp⟩)).step rfl (fun f i hT hD => ?_) hs ht
      (hund hcareful) hy hp
    rw [unmounted_mem, if_neg (not_or.mpr ⟨hT, hD⟩)]

/-- **The live mounts**, in every state of a careful run, are different, each shows its own
directory and page tables, and memory is as before when there are none. The next call returns. -/
theorem mounts_of_cachedRun (h : CachedRun D T True x₀ x live) :
    (live.Pairwise fun y z => y.1.directory ≠ z.1.directory ∧ y.1.pages ≠ z.1.pages) ∧
    (∀ y ∈ live, Shows x.machine.mem x.translate y.1 y.2) ∧
    (live = [] → x.machine.mem = x₀.machine.mem) ∧
    (live.length < 4 → ∀ dir, (mountDirectory x.machine dir).isSome = true) ∧
    (∀ y ∈ live, (umountDirectory x.machine y.1).isSome = true) ∧
    ∀ va, OwnPage w (frameOf va) → x.translate va = x.machine.translate va := by
  have hm := h.mounted h₀ hslot hwindow
  have hcur := hm.current h₀
  have hfr := h.fresh h₀ hslot hwindow hfresh
  refine ⟨hm.slots.apart.and hm.windows.apart, fun y hy => ?_, ?_, ?_, fun y hy => ?_,
    fun va hva => (hfr _ (.inl hva)).translate hcur.pagingEnabled⟩
  · obtain ⟨hdir, hpages⟩ := hm.shows h₀ hy
    obtain ⟨s, hs, t, ht, hmt, -, -⟩ := hm.placed hy
    obtain ⟨hs', ht'⟩ := toNat_mountAt hs ht
    have hfour : (4 : UInt32).toNat = 4 := rfl
    refine ⟨fun i hi => ?_, fun n hn => ?_⟩
    · rw [← hdir i hi]
      refine (hfr _ (.inr ⟨trivial, y, hy, .inl ?_⟩)).translate hcur.pagingEnabled
      rw [frameOf_eq, hmt, UInt32.toNat_add, UInt32.toNat_mul, UInt32.toNat_ofNat', hfour]
      rw [mountAt, toNat_slotAddr hs]
      omega
    · rw [← hpages n hn]
      refine (hfr _ (.inr ⟨trivial, y, hy, .inr ?_⟩)).translate hcur.pagingEnabled
      rw [frameOf_eq, hmt, UInt32.toNat_add, UInt32.toNat_mul, UInt32.toNat_ofNat', hfour]
      rw [mountAt, toNat_windowAddr ht]
      omega
  · rintro rfl
    exact hm.mem_eq hslot hwindow
  · intro hlt dir
    obtain ⟨s, -, t, -, -, -, heq⟩ := hm.mountDirectory_eq h₀ hlt dir
    rw [heq, isSome_some]
  · obtain ⟨s, hs, t, ht, hmt, -, -⟩ := hm.placed hy
    rw [hmt, umountDirectory_eq hcur hs ht, isSome_some]

end

/-! ### Two directories in one window -/

/-- The sample, with nothing cached. -/
def uncached : Cached := ⟨sampleMachine, fun _ => none⟩

/-- A directory in frame 48 is mounted, and its slot is cached. -/
theorem mounts_of_cachedRun_uncached : ∃ x mt,
    CachedRun 16 18 True uncached x [(mt, ⟨0x30000, 0, 0⟩)] ∧
      x.tlb (frameOf mt.directory) = some 48 ∧
      Shows x.machine.mem x.translate mt ⟨0x30000, 0, 0⟩ := by
  have h₀ : Current sampleMachine 16 18 1023 := selfMapped_sampleMachine.current (by decide)
  have hslot : ∀ s < 4, sampleMachine.mem 18 (1019 + s) = 0 := by decide
  have hwindow : ∀ t < 8, sampleMachine.mem 16 (1012 + t) = 0 := by decide
  have hfresh : ∀ p, uncached.Fresh p := fun p f hf => nomatch hf
  have hmount : ((mountDirectory sampleMachine ⟨0x30000, 0, 0⟩).map fun z =>
      (z.1, z.2.walk (frameOf z.1.directory))) = some (mountAt 0 0, some 48) := by decide
  obtain ⟨⟨mt, m⟩, hm, heq⟩ := map_eq_some_iff.mp hmount
  obtain ⟨rfl, hwalk⟩ := Prod.mk.inj heq
  have hrun : CachedRun 16 18 True uncached _ [(mountAt 0 0, ⟨0x30000, 0, 0⟩)] :=
    .fill (.mount .start (by decide) hm fun _ y _ p _ hp => absurd rfl hp) hwalk
  exact ⟨_, _, hrun, by simp [Cached.fill],
    (mounts_of_cachedRun h₀ hslot hwindow hfresh hrun).2.1 _ (List.mem_singleton_self _)⟩

/-- A page of the window is cached for the directory in frame 17, which is unmounted. The directory
in frame 48 has no page table there, but the window shows one. -/
theorem not_shows_stale : ∃ x mt,
    CachedRun 16 18 False uncached x [(mt, ⟨0x30000, 0, 0⟩)] ∧
      ¬Shows x.machine.mem x.translate mt ⟨0x30000, 0, 0⟩ := by
  have hcalls : ((mountDirectory sampleMachine ⟨0x11000, 0, 0⟩).bind fun z =>
      (umountDirectory z.2 z.1).bind fun m => (mountDirectory m ⟨0x30000, 0, 0⟩).map fun z' =>
        (z.1, z.2.walk 1037311, z'.1, z'.2.mem 48 1023)) =
      some (mountAt 0 0, some 16, mountAt 0 0, 0) := by decide +kernel
  obtain ⟨⟨mt, m₁⟩, hmount, hcalls⟩ := bind_eq_some_iff.mp hcalls
  obtain ⟨m₂, humount, hcalls⟩ := bind_eq_some_iff.mp hcalls
  obtain ⟨⟨mt', m₃⟩, hmount', heq⟩ := map_eq_some_iff.mp hcalls
  obtain ⟨rfl, hwalk, rfl, hzero⟩ : mt = mountAt 0 0 ∧ m₁.walk 1037311 = some 16 ∧
      mt' = mountAt 0 0 ∧ m₃.mem 48 1023 = 0 := by simpa using heq
  have hempty : CachedRun 16 18 False uncached _ ([] ++ []) :=
    .umount (.fill (.mount .start (by decide) hmount nofun) hwalk) humount nofun
  have hrun : CachedRun 16 18 False uncached _ [(mountAt 0 0, ⟨0x30000, 0, 0⟩)] :=
    .mount hempty (by decide) hmount' nofun
  refine ⟨_, _, hrun, fun hshows => ?_⟩
  have hpage := hshows.pages (1023 * 1024) (by decide)
  have hva : frameOf ((mountAt 0 0).pages + 4190208) = 1037311 := by decide
  have hslot : 1037311 ≠ frameOf (mountAt 0 0).directory := by decide
  have hframe : frameOf 0x30000 = 48 := by decide
  simp [Cached.translate, Cached.invlpg, Cached.fill, hva, hslot, hframe, hzero, present] at hpage

end AthenX.Paging
