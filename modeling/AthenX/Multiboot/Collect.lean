import AthenX.Multiboot.Basic

/-!
# The pages that are collected

`pmm_collect_pages` should free each page in an available range below 4 GB, once, and no other. It
adds the low words only. So it takes a range above 4 GB for one below, frees pages that are not
wholly inside, skips a range whose end is 4 GB, and does not end if the last page is reached.
-/

namespace AthenX.Multiboot

open List UInt32

namespace MemoryMap

/-- Where the range starts. -/
def start (e : MemoryMap) : ℕ := e.addrHigh.toNat * 2 ^ 32 + e.addrLow.toNat

/-- Where the range ends. -/
def stop (e : MemoryMap) : ℕ := e.start + (e.lenHigh.toNat * 2 ^ 32 + e.lenLow.toNat)

/-- The page with number `n` lies wholly inside the range, and below 4 GB. -/
def WholePage (e : MemoryMap) (n : ℕ) : Prop :=
  e.start ≤ 4096 * n ∧ 4096 * (n + 1) ≤ e.stop ∧ 4096 * (n + 1) ≤ 2 ^ 32

/-- Where the page loop stops. -/
def limit (e : MemoryMap) : UInt32 := e.addrLow + e.lenLow

/-- A range of whole pages below 4 GB, without the last one. -/
structure Exact (e : MemoryMap) : Prop where
  addrHigh : e.addrHigh = 0
  lenHigh : e.lenHigh = 0
  addrLow : e.addrLow.toNat % 4096 = 0
  lenLow : e.lenLow.toNat % 4096 = 0
  stop : e.stop < 2 ^ 32

/-- A range without a whole page below 4 GB, for which the loop does nothing. -/
structure Idle (e : MemoryMap) : Prop where
  noPage : ∀ n, ¬e.WholePage n
  limit : e.limit ≤ e.addrLow

end MemoryMap

/-- The number of the page that `pmm_free_page` frees. -/
def pageOf (j : UInt32) : ℕ := j.toNat / 4096

/-- The two ranges have no address in common. -/
def MemoryMap.Apart (e f : MemoryMap) : Prop :=
  Disjoint (Set.Ico e.start e.stop) (Set.Ico f.start f.stop)

instance : Std.Symm MemoryMap.Apart := ⟨fun _ _ h => Disjoint.symm h⟩

/-- No two ranges have an address in common. -/
def DisjointMap (es : List MemoryMap) : Prop := es.Pairwise MemoryMap.Apart

/-- The calls of `pmm_free_page` are for the pages inside the available ranges below 4 GB, once
each. -/
structure Collects (es : List MemoryMap) (freed : List UInt32) : Prop where
  once : (freed.map pageOf).Nodup
  pages : ∀ n, n ∈ freed.map pageOf ↔ ∃ e ∈ es, e.type = memoryAvailable ∧ e.WholePage n

/-! ### The page loop -/

variable {fuel n x : ℕ}

section

variable {limit j : UInt32}

/-- **The page loop**, if it ends: the pages from the one of `j` on. -/
theorem freeRange_pages (fuel : ℕ) (hend : limit ≤ j ∨ limit.toNat ≤ 2 ^ 32 - 4096 + j.toNat % 4096)
    (hfuel : (limit.toNat - j.toNat + 4095) / 4096 < fuel) :
    (freeRange limit fuel j).1.map pageOf =
        (List.range ((limit.toNat - j.toNat + 4095) / 4096)).map (pageOf j + ·) ∧
      (freeRange limit fuel j).2 = true := by
  induction fuel generalizing j with
  | zero => omega
  | succ fuel ih =>
    by_cases hj : j < limit
    · -- the bound on the limit keeps the next `j` from wrapping around
      have hlt := lt_iff_toNat_lt.mp hj
      have hnext : (j + 0x1000).toNat = j.toNat + 4096 := by
        rw [UInt32.toNat_add]
        show (j.toNat + 4096) % 2 ^ 32 = _
        rcases hend with hend | hend
        · exact absurd (UInt32.lt_of_lt_of_le hj hend) (UInt32.lt_irrefl j)
        · omega
      have hcount : (limit.toNat - j.toNat + 4095) / 4096 =
          (limit.toNat - (j + 0x1000).toNat + 4095) / 4096 + 1 := by omega
      obtain ⟨hpages, hdone⟩ := @ih (j + 0x1000) (by
        rcases hend with hend | hend
        · exact absurd (UInt32.lt_of_lt_of_le hj hend) (UInt32.lt_irrefl j)
        · exact .inr (by omega)) (by omega)
      simp only [freeRange, hj, if_true]
      refine ⟨?_, hdone⟩
      rw [map_cons, hpages, hcount, range_succ_eq_map, map_cons, map_map]
      refine congrArg₂ List.cons rfl (map_congr_left fun k _ => ?_)
      simp only [Function.comp_apply, pageOf]
      omega
    · have hle := UInt32.not_lt.mp hj
      have hzero : (limit.toNat - j.toNat + 4095) / 4096 = 0 := by
        have := le_iff_toNat_le.mp hle
        omega
      simp [freeRange, hj, hzero]

theorem freeRange_succ (hdone : (freeRange limit fuel j).2 = true) :
    freeRange limit (fuel + 1) j = freeRange limit fuel j := by
  induction fuel generalizing j with
  | zero => cases hdone
  | succ fuel ih =>
    by_cases hj : j < limit
    · simp only [freeRange, hj] at hdone ⊢
      have hstep := ih hdone
      simp only [freeRange] at hstep
      rw [hstep]
    · simp [freeRange, hj]

/-- The page loop does not end if no page behind `j` is behind the limit. -/
theorem freeRange_endless (fuel : ℕ) (hj : j < limit)
    (hlimit : 2 ^ 32 - 4096 + j.toNat % 4096 < limit.toNat) :
    (freeRange limit fuel j).2 = false := by
  induction fuel generalizing j with
  | zero => rfl
  | succ fuel ih =>
    have hnext : (j + 0x1000).toNat = (j.toNat + 4096) % 2 ^ 32 := by
      rw [UInt32.toNat_add]
      rfl
    simp only [freeRange, hj]
    refine ih ?_ ?_
    · rw [lt_iff_toNat_lt]
      omega
    · omega

end

/-! ### One entry -/

namespace MemoryMap

variable {e f : MemoryMap}

/-- The page loop ends. -/
def Ends (e : MemoryMap) : Prop :=
  e.limit ≤ e.addrLow ∨ e.limit.toNat ≤ 2 ^ 32 - 4096 + e.addrLow.toNat % 4096

/-- The number of iterations of the page loop. -/
def count (e : MemoryMap) : ℕ := (e.limit.toNat - e.addrLow.toNat + 4095) / 4096

/-- The pages that are freed for an entry. -/
def freed (e : MemoryMap) : List ℕ :=
  if e.type = memoryAvailable then (List.range e.count).map (pageOf e.addrLow + ·) else []

theorem mem_freed : n ∈ e.freed ↔
    e.type = memoryAvailable ∧ ∃ k < e.count, n = e.addrLow.toNat / 4096 + k := by
  unfold freed
  split
  · next ht => simp [ht, pageOf, eq_comm]
  · next ht => simp [ht]

theorem nodup_freed (e : MemoryMap) : e.freed.Nodup := by
  unfold freed
  split
  · exact List.Nodup.map (fun _ _ h => Nat.add_left_cancel h) nodup_range
  · exact nodup_nil

theorem toNat_limit (e : MemoryMap) :
    e.limit.toNat = (e.addrLow.toNat + e.lenLow.toNat) % 2 ^ 32 := UInt32.toNat_add _ _

theorem limit_of_lt (h : e.addrLow < e.limit) :
    e.limit.toNat = e.addrLow.toNat + e.lenLow.toNat ∧ 0 < e.lenLow.toNat ∧ 0 < e.count := by
  have hlt := lt_iff_toNat_lt.mp h
  have hlimit := e.toNat_limit
  have hlen := e.lenLow.toNat_lt
  unfold count
  omega

theorem collectEntry_pages (he : e.type = memoryAvailable → e.Ends) (hfuel : e.count < fuel) :
    (collectEntry fuel e).1.map pageOf = e.freed ∧ (collectEntry fuel e).2 = true := by
  unfold collectEntry freed
  by_cases ht : e.type = memoryAvailable
  · rw [if_pos (show e.type = 1 from ht), if_pos ht]
    exact freeRange_pages fuel (he ht) hfuel
  · rw [if_neg (show e.type ≠ 1 from ht), if_neg ht]
    exact ⟨rfl, rfl⟩

theorem collectEntry_endless (ht : e.type = memoryAvailable) (he : ¬e.Ends) (fuel : ℕ) :
    (collectEntry fuel e).2 = false := by
  obtain ⟨hlt, hlimit⟩ := not_or.mp he
  unfold collectEntry
  rw [if_pos (show e.type = 1 from ht)]
  exact freeRange_endless fuel (UInt32.not_le.mp hlt) (Nat.lt_of_not_le hlimit)

theorem Ends.lt_of_mem (h : e.Ends) (hn : n ∈ e.freed) : n < 2 ^ 20 - 1 := by
  obtain ⟨-, k, hk, rfl⟩ := mem_freed.mp hn
  unfold count at hk
  rcases h with h | h
  · have := le_iff_toNat_le.mp h
    omega
  · omega

/-! ### The two kinds of ranges -/

theorem Exact.limit (h : e.Exact) : e.limit.toNat = e.addrLow.toNat + e.lenLow.toNat ∧
    e.start = e.addrLow.toNat ∧ e.stop = e.addrLow.toNat + e.lenLow.toNat := by
  have hstop := h.stop
  have hlimit := e.toNat_limit
  have hstart : e.start = e.addrLow.toNat := by simp [start, h.addrHigh]
  have hend : e.stop = e.addrLow.toNat + e.lenLow.toNat := by
    simp [MemoryMap.stop, hstart, h.lenHigh]
  omega

theorem Exact.ends (h : e.Exact) : e.Ends := by
  obtain ⟨hlimit, -, hend⟩ := h.limit
  have hstop := h.stop
  have hlen := h.lenLow
  exact .inr (by omega)

theorem mem_freed_iff (ht : e.type = memoryAvailable) (h : e.Exact ∨ e.Idle) :
    n ∈ e.freed ↔ e.WholePage n := by
  rw [mem_freed]
  rcases h with h | h
  · obtain ⟨hlimit, hstart, hend⟩ := h.limit
    have hstop := h.stop
    have haddr := h.addrLow
    have hlen := h.lenLow
    unfold WholePage count
    constructor
    · rintro ⟨-, k, hk, rfl⟩
      omega
    · intro hn
      exact ⟨ht, n - e.addrLow.toNat / 4096, by omega, by omega⟩
  · refine ⟨?_, fun hn => absurd hn (h.noPage n)⟩
    rintro ⟨-, k, hk, -⟩
    have := le_iff_toNat_le.mp h.limit
    unfold count at hk
    omega

theorem WholePage.touches (h : e.WholePage n) (hx : x / 4096 = n)
    (hf : x ∈ Set.Ico f.start f.stop) : ¬e.Apart f := by
  unfold Apart
  rw [Set.not_disjoint_iff]
  unfold WholePage at h
  exact ⟨x, ⟨by omega, by omega⟩, hf⟩

end MemoryMap

/-! ### All entries -/

section

variable {mem : Memory} {a b : UInt32} {e : MemoryMap} {es : List MemoryMap}

theorem Laid.le (h : Laid mem a es b) : a.toNat ≤ b.toNat := by
  induction h with
  | nil a => exact Nat.le_refl _
  | @cons a b e es _ hsize hwrap _ ih =>
    rw [UInt32.toNat_add, UInt32.toNat_add] at ih
    have hfour : (4 : UInt32).toNat = 4 := rfl
    omega

theorem toNat_next (hwrap : a.toNat + (e.size.toNat + 4) < 2 ^ 32) :
    (a + (e.size + 4)).toNat = a.toNat + (e.size.toNat + 4) := by
  have hfour : (4 : UInt32).toNat = 4 := rfl
  rw [UInt32.toNat_add, UInt32.toNat_add]
  omega

theorem lt_of_laid (hwrap : a.toNat + (e.size.toNat + 4) < 2 ^ 32)
    (h : Laid mem (a + (e.size + 4)) es b) : a < b := by
  have hle := h.le
  rw [toNat_next hwrap] at hle
  rw [lt_iff_toNat_lt]
  omega

theorem collect_cons (hlt : a < b) (hdone : (collectEntry fuel (memoryMapAt mem a)).2 = true) :
    collect mem b (fuel + 1) a =
      let c := collect mem b fuel (a + ((memoryMapAt mem a).size + 4))
      ⟨a :: c.visited, (collectEntry fuel (memoryMapAt mem a)).1 ++ c.freed, c.done⟩ := by
  simp [collect, hlt, hdone]

theorem collect_endless (hlt : a < b) (hdone : (collectEntry fuel (memoryMapAt mem a)).2 = false) :
    collect mem b (fuel + 1) a = ⟨[a], (collectEntry fuel (memoryMapAt mem a)).1, false⟩ := by
  simp [collect, hlt, hdone]

theorem collectEntry_succ {me : MemoryMap} (hdone : (collectEntry fuel me).2 = true) :
    collectEntry (fuel + 1) me = collectEntry fuel me := by
  unfold collectEntry at hdone ⊢
  by_cases ht : me.type = 1
  · rw [if_pos ht] at hdone ⊢
    rw [if_pos ht]
    exact freeRange_succ hdone
  · rw [if_neg ht, if_neg ht]

theorem collect_succ (hdone : (collect mem b fuel a).done = true) :
    collect mem b (fuel + 1) a = collect mem b fuel a := by
  induction fuel generalizing a with
  | zero => cases hdone
  | succ fuel ih =>
    by_cases hlt : a < b
    · cases hentry : (collectEntry fuel (memoryMapAt mem a)).2 with
      | false =>
        rw [collect_endless hlt hentry] at hdone
        cases hdone
      | true =>
        have hentry' : (collectEntry (fuel + 1) (memoryMapAt mem a)).2 = true := by
          rw [collectEntry_succ hentry]
          exact hentry
        rw [collect_cons hlt hentry] at hdone
        rw [collect_cons hlt hentry', collect_cons hlt hentry, collectEntry_succ hentry, ih hdone]
    · simp [collect, hlt]

theorem collect_of_done {fuel' : ℕ} (hdone : (collect mem b fuel a).done = true)
    (hle : fuel ≤ fuel') : collect mem b fuel' a = collect mem b fuel a := by
  induction fuel', hle using Nat.le_induction with
  | base => rfl
  | succ n _ ih =>
    rw [← ih] at hdone
    rw [collect_succ hdone, ih]

/-- **The loop over the entries**, if all page loops end. -/
theorem collect_pages (h : Laid mem a es b) (hends : ∀ e ∈ es, e.type = memoryAvailable → e.Ends) :
    ∃ n, ∀ fuel ≥ n, (collect mem b fuel a).done = true ∧
      (collect mem b fuel a).freed.map pageOf = es.flatMap MemoryMap.freed := by
  induction h with
  | nil a =>
    refine ⟨1, fun fuel hfuel => ?_⟩
    obtain ⟨fuel, rfl⟩ := Nat.exists_eq_add_of_le' hfuel
    simp [collect]
  | @cons a b e es hat hsize hwrap hl ih =>
    subst hat
    obtain ⟨n, hn⟩ := ih fun e he => hends e (mem_cons_of_mem _ he)
    refine ⟨max n ((memoryMapAt mem a).count + 1) + 1, fun fuel hfuel => ?_⟩
    obtain ⟨fuel, rfl⟩ := Nat.exists_eq_add_of_le' (Nat.le_of_add_left_le hfuel)
    obtain ⟨hpages, hended⟩ := MemoryMap.collectEntry_pages (hends _ mem_cons_self)
      (show (memoryMapAt mem a).count < fuel by omega)
    obtain ⟨hdone, hfreed⟩ := hn fuel (by omega)
    rw [collect_cons (lt_of_laid hwrap hl) hended]
    refine ⟨hdone, ?_⟩
    rw [map_append, hpages, hfreed, flatMap_cons]

theorem ends_of_collect (h : Laid mem a es b) (hdone : (collect mem b fuel a).done = true) :
    ∀ e ∈ es, e.type = memoryAvailable → e.Ends := by
  induction h generalizing fuel with
  | nil a => simp
  | @cons a b e es hat hsize hwrap hl ih =>
    subst hat
    have hlt := lt_of_laid hwrap hl
    cases fuel with
    | zero => cases hdone
    | succ fuel =>
      cases hentry : (collectEntry fuel (memoryMapAt mem a)).2 with
      | false =>
        rw [collect_endless hlt hentry] at hdone
        cases hdone
      | true =>
        rw [collect_cons hlt hentry] at hdone
        intro e he ht
        rcases mem_cons.mp he with rfl | he
        · by_contra hends
          rw [MemoryMap.collectEntry_endless ht hends fuel] at hentry
          cases hentry
        · exact ih hdone e he ht

/-- **What the loop has done when it ends**, whatever the bound was. -/
theorem collect_done_iff (h : Laid mem a es b) (P : List ℕ → Prop) :
    (∃ fuel, (collect mem b fuel a).done = true ∧ P ((collect mem b fuel a).freed.map pageOf)) ↔
      (∀ e ∈ es, e.type = memoryAvailable → e.Ends) ∧ P (es.flatMap MemoryMap.freed) := by
  constructor
  · rintro ⟨fuel, hdone, hP⟩
    have hends := ends_of_collect h hdone
    obtain ⟨n, hn⟩ := collect_pages h hends
    obtain ⟨-, hfreed⟩ := hn (max n fuel) (Nat.le_max_left n fuel)
    rw [collect_of_done hdone (Nat.le_max_right n fuel)] at hfreed
    exact ⟨hends, hfreed ▸ hP⟩
  · rintro ⟨hends, hP⟩
    obtain ⟨n, hn⟩ := collect_pages h hends
    obtain ⟨hdone, hfreed⟩ := hn n (Nat.le_refl n)
    exact ⟨n, hdone, hfreed.symm ▸ hP⟩

end

/-! ### All pages -/

section

variable {es : List MemoryMap} {e f : MemoryMap}

/-- The pages freed are pages of the available ranges, each freed for one entry. -/
structure Exactly (es : List MemoryMap) : Prop where
  ends : ∀ e ∈ es, e.type = memoryAvailable → e.Ends
  once : (es.flatMap MemoryMap.freed).Nodup
  pages : ∀ n, n ∈ es.flatMap MemoryMap.freed ↔
    ∃ e ∈ es, e.type = memoryAvailable ∧ e.WholePage n

theorem exactly_of_kinds (hd : DisjointMap es)
    (h : ∀ e ∈ es, e.type = memoryAvailable → e.Exact ∨ e.Idle) : Exactly es := by
  have hmem : ∀ e ∈ es, ∀ n, n ∈ e.freed ↔ e.type = memoryAvailable ∧ e.WholePage n := by
    intro e he n
    constructor
    · intro hn
      have ht := (MemoryMap.mem_freed.mp hn).1
      exact ⟨ht, (MemoryMap.mem_freed_iff ht (h e he ht)).mp hn⟩
    · rintro ⟨ht, hn⟩
      exact (MemoryMap.mem_freed_iff ht (h e he ht)).mpr hn
  refine ⟨fun e he ht => ?_, ?_, fun n => ?_⟩
  · rcases h e he ht with h | h
    · exact h.ends
    · exact .inl h.limit
  · rw [nodup_flatMap]
    refine ⟨fun e _ => e.nodup_freed, hd.imp_of_mem fun {e f} he hf hdis n hn hn' => ?_⟩
    -- the first address of the page lies in both ranges
    have hne := ((hmem e he n).mp hn).2
    have hnf := ((hmem f hf n).mp hn').2
    unfold MemoryMap.WholePage at hnf
    exact hne.touches (x := 4096 * n) (by omega) ⟨by omega, by omega⟩ hdis
  · rw [mem_flatMap]
    constructor
    · rintro ⟨e, he, hn⟩
      exact ⟨e, he, (hmem e he n).mp hn⟩
    · rintro ⟨e, he, hn⟩
      exact ⟨e, he, (hmem e he n).mpr hn⟩

namespace Exactly

theorem wholePage (h : Exactly es) (hd : DisjointMap es) (he : e ∈ es)
    (hx : x ∈ Set.Ico e.start e.stop) (hn : x / 4096 ∈ es.flatMap MemoryMap.freed) :
    e.WholePage (x / 4096) := by
  obtain ⟨f, hf, -, hpage⟩ := (h.pages _).mp hn
  by_cases hfe : f = e
  · exact hfe ▸ hpage
  · exact absurd (hd.forall hf he hfe) (hpage.touches rfl hx)

theorem stop_lt (h : Exactly es) (he : e ∈ es) (ht : e.type = memoryAvailable)
    (hn : e.WholePage n) : e.stop < 2 ^ 32 := by
  by_contra hstop
  unfold MemoryMap.WholePage at hn
  have hlast : e.WholePage (2 ^ 20 - 1) := ⟨by omega, by omega, by omega⟩
  obtain ⟨f, hf, hfreed⟩ := mem_flatMap.mp ((h.pages _).mpr ⟨e, he, ht, hlast⟩)
  have hlt := (h.ends f hf (MemoryMap.mem_freed.mp hfreed).1).lt_of_mem hfreed
  exact Nat.lt_irrefl _ hlt

theorem mem_freed (he : e ∈ es) (ht : e.type = memoryAvailable) {k : ℕ} (hk : k < e.count) :
    e.addrLow.toNat / 4096 + k ∈ es.flatMap MemoryMap.freed :=
  mem_flatMap.mpr ⟨e, he, MemoryMap.mem_freed.mpr ⟨ht, k, hk, rfl⟩⟩

section

variable (h : Exactly es) (hd : DisjointMap es) (he : e ∈ es) (ht : e.type = memoryAvailable)

include h hd he ht

theorem exact (hn : e.WholePage n) : e.Exact := by
  have hstop := h.stop_lt he ht hn
  -- the high words are zero, and the sum of the low words does not wrap around
  have hhigh : e.addrHigh.toNat = 0 ∧ e.lenHigh.toNat = 0 := by
    unfold MemoryMap.stop MemoryMap.start at hstop
    omega
  have hstart : e.start = e.addrLow.toNat := by simp [MemoryMap.start, hhigh.1]
  have hend : e.stop = e.addrLow.toNat + e.lenLow.toNat := by
    simp [MemoryMap.stop, hstart, hhigh.2]
  have hlimit := e.toNat_limit
  have hcount : e.count = (e.lenLow.toNat + 4095) / 4096 := by
    unfold MemoryMap.count
    omega
  unfold MemoryMap.WholePage at hn
  -- the first page and the last page that are freed lie in the range
  have hfirst := h.wholePage hd he ⟨by omega, by omega⟩ (mem_freed he ht (k := 0) (by omega))
  have hlast := h.wholePage hd he (x := e.addrLow.toNat + 4096 * (e.count - 1))
    ⟨by omega, by omega⟩ (by
      have hmem := mem_freed he ht (k := e.count - 1) (by omega)
      rwa [show (e.addrLow.toNat + 4096 * (e.count - 1)) / 4096 =
        e.addrLow.toNat / 4096 + (e.count - 1) by omega])
  unfold MemoryMap.WholePage at hfirst hlast
  exact ⟨UInt32.toNat_inj.mp hhigh.1, UInt32.toNat_inj.mp hhigh.2, by omega, by omega, hstop⟩

theorem idle (hn : ∀ n, ¬e.WholePage n) : e.Idle := by
  refine ⟨hn, ?_⟩
  by_contra hlt
  obtain ⟨hlimit, hlen, hcount⟩ := MemoryMap.limit_of_lt (UInt32.not_le.mp hlt)
  have hmem : e.addrLow.toNat / 4096 ∈ es.flatMap MemoryMap.freed := mem_freed he ht hcount
  by_cases hhigh : e.addrHigh.toNat = 0
  · -- below 4 GB, the first page that is freed has an address in the range
    have hstart : e.start = e.addrLow.toNat := by simp [MemoryMap.start, hhigh]
    refine hn _ (h.wholePage hd he ⟨by omega, ?_⟩ hmem)
    unfold MemoryMap.stop
    omega
  · -- above, it is freed for the range it lies in as well
    obtain ⟨f, hf, htf, hpage⟩ := (h.pages _).mp hmem
    have hfe : e ≠ f := by
      rintro rfl
      exact hn _ hpage
    have hfreed : e.addrLow.toNat / 4096 ∈ f.freed :=
      (MemoryMap.mem_freed_iff htf (.inl (h.exact hd hf htf hpage))).mpr hpage
    have hsymm : Std.Symm (Function.onFun List.Disjoint MemoryMap.freed) :=
      ⟨fun _ _ hs _ hx hy => hs hy hx⟩
    have hdis : Function.onFun List.Disjoint MemoryMap.freed e f :=
      (nodup_flatMap.mp h.once).2.forall he hf hfe
    exact hdis (MemoryMap.mem_freed.mpr ⟨ht, 0, hcount, rfl⟩) hfreed

end

end Exactly

theorem exactly_iff (hd : DisjointMap es) :
    Exactly es ↔ ∀ e ∈ es, e.type = memoryAvailable → e.Exact ∨ e.Idle := by
  refine ⟨fun h e he ht => ?_, exactly_of_kinds hd⟩
  by_cases hn : ∃ n, e.WholePage n
  · obtain ⟨n, hn⟩ := hn
    exact .inl (h.exact hd he ht hn)
  · exact .inr (h.idle hd he ht fun n hc => hn ⟨n, hc⟩)

end

/-! ### `pmm_collect_pages` -/

theorem collects_iff_exactly {mem : Memory} {info : Info} {es : List MemoryMap}
    (hv : ValidMap mem info es) :
    (∃ fuel, (pmmCollectPages fuel mem info).done = true ∧
      Collects es (pmmCollectPages fuel mem info).freed) ↔ Exactly es := by
  let P : List ℕ → Prop := fun l =>
    l.Nodup ∧ ∀ n, n ∈ l ↔ ∃ e ∈ es, e.type = memoryAvailable ∧ e.WholePage n
  have hiff := collect_done_iff hv.laid P
  constructor
  · rintro ⟨fuel, hdone, hc⟩
    obtain ⟨hends, honce, hpages⟩ := hiff.mp ⟨fuel, hdone, hc.once, hc.pages⟩
    exact ⟨hends, honce, hpages⟩
  · intro h
    obtain ⟨fuel, hdone, honce, hpages⟩ := hiff.mpr ⟨h.ends, h.once, h.pages⟩
    exact ⟨fuel, hdone, honce, hpages⟩

/-- **The pages that are collected** are those below 4 GB of the available ranges, once each, if and
only if each range is one of whole pages that ends below 4 GB, or has no page there and no sum of
its low words greater than the first one. -/
theorem collects_iff {mem : Memory} {info : Info} {es : List MemoryMap}
    (hv : ValidMap mem info es) (hd : DisjointMap es) :
    (∃ fuel, (pmmCollectPages fuel mem info).done = true ∧
      Collects es (pmmCollectPages fuel mem info).freed) ↔
    ∀ e ∈ es, e.type = memoryAvailable → e.Exact ∨ e.Idle :=
  (collects_iff_exactly hv).trans (exactly_iff hd)

/-- An available range of 1 MB. -/
def lowRange : MemoryMap := ⟨20, 0x100000, 0, 0x100000, 0, 1⟩

/-- The range 4 GB above it. -/
def highRange : MemoryMap := ⟨20, 0x100000, 1, 0x100000, 0, 1⟩

/-- A table with the two. -/
def twoRanges : Memory :=
  ofWords [20, 0x100000, 0, 0x100000, 0, 1, 20, 0x100000, 1, 0x100000, 0, 1]

/-- The first entry alone: its pages are collected. -/
theorem collects_lowRange : ValidMap twoRanges ⟨0, 0, 24, 0⟩ [lowRange] ∧
    DisjointMap [lowRange] ∧ ∃ fuel, (pmmCollectPages fuel twoRanges ⟨0, 0, 24, 0⟩).done = true ∧
      Collects [lowRange] (pmmCollectPages fuel twoRanges ⟨0, 0, 24, 0⟩).freed := by
  have hv : ValidMap twoRanges ⟨0, 0, 24, 0⟩ [lowRange] :=
    ⟨by decide, .cons (by decide) (by decide) (by decide) (.nil _)⟩
  have hd : DisjointMap [lowRange] := pairwise_singleton _ _
  refine ⟨hv, hd, (collects_iff hv hd).mpr fun e he _ => .inl ?_⟩
  rw [mem_singleton.mp he]
  exact ⟨rfl, rfl, by decide, by decide, by decide⟩

/-- Both entries: for the second one the pages of the first one are freed again. -/
theorem collects_alias : ValidMap twoRanges ⟨0, 0, 48, 0⟩ [lowRange, highRange] ∧
    DisjointMap [lowRange, highRange] ∧
    ¬∃ fuel, (pmmCollectPages fuel twoRanges ⟨0, 0, 48, 0⟩).done = true ∧
      Collects [lowRange, highRange] (pmmCollectPages fuel twoRanges ⟨0, 0, 48, 0⟩).freed := by
  have hv : ValidMap twoRanges ⟨0, 0, 48, 0⟩ [lowRange, highRange] :=
    ⟨by decide, .cons (by decide) (by decide) (by decide)
      (.cons (by decide) (by decide) (by decide) (.nil _))⟩
  have hapart : lowRange.Apart highRange := by
    unfold MemoryMap.Apart
    rw [Set.disjoint_left]
    rintro x ⟨-, hx⟩ ⟨hx', -⟩
    have hstop : lowRange.stop = 0x200000 := by decide
    have hstart : highRange.start = 0x100100000 := by decide
    omega
  have hd : DisjointMap [lowRange, highRange] := pairwise_pair.mpr hapart
  refine ⟨hv, hd, fun hc => ?_⟩
  have hkinds := (exactly_iff hd).mp ((collects_iff_exactly hv).mp hc)
  rcases hkinds highRange (by simp) rfl with h | h
  · exact absurd h.addrHigh (by decide)
  · exact absurd h.limit (by decide)

end AthenX.Multiboot
