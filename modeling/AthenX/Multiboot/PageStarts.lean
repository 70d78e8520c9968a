import AthenX.Multiboot.Collect

/-!
# The pages that start in a range

At the least, `pmm_collect_pages` should end and pass an address of each page that starts in an
available range. Its steps of a page from the start of the range may miss the last one, and nothing
is passed for a range that ends at 4 GB, whose end is zero. Another range may still pass the page.
-/

namespace AthenX.Multiboot

open List

namespace MemoryMap

/-- The range lies below 4 GB. -/
structure Low (e : MemoryMap) : Prop where
  addrHigh : e.addrHigh = 0
  lenHigh : e.lenHigh = 0
  stop : e.addrLow.toNat + e.lenLow.toNat ≤ 2 ^ 32

/-- The page with number `n` starts in the range. -/
def PageStart (e : MemoryMap) (n : ℕ) : Prop := e.start ≤ 4096 * n ∧ 4096 * n < e.stop

instance (e : MemoryMap) (n : ℕ) : Decidable (e.PageStart n) :=
  inferInstanceAs (Decidable (_ ∧ _))

/-- Page `n` starts in the range, but the loop does not come to it. -/
def Misses (e : MemoryMap) (n : ℕ) : Prop :=
  e.PageStart n ∧ (e.stop = 2 ^ 32 ∨
    n = (e.stop - 1) / 4096 ∧ 4096 ≤ (e.lenLow.toNat - 1) % 4096 + e.addrLow.toNat % 4096)

variable {e : MemoryMap} {n : ℕ}

theorem Low.bounds (h : e.Low) :
    e.start = e.addrLow.toNat ∧ e.stop = e.addrLow.toNat + e.lenLow.toNat := by
  have hstart : e.start = e.addrLow.toNat := by simp [start, h.addrHigh]
  exact ⟨hstart, by simp [MemoryMap.stop, hstart, h.lenHigh]⟩

/-- **What is missed** is what starts in the range and is not passed. -/
theorem misses_iff (h : e.Low) (ht : e.type = memoryAvailable) :
    e.Misses n ↔ e.PageStart n ∧ n ∉ e.freed := by
  refine and_congr_right fun hn => ?_
  obtain ⟨hstart, hstop⟩ := h.bounds
  have hle := h.stop
  have hlimit := e.toNat_limit
  rw [mem_freed, and_iff_right ht, count]
  rw [PageStart] at hn
  constructor
  · rintro hmiss ⟨k, hk, rfl⟩
    omega
  · intro hnot
    by_contra hmiss
    exact hnot ⟨n - e.addrLow.toNat / 4096, by omega, by omega⟩

end MemoryMap

/-- An address of each page that starts in an available range is passed to `pmm_free_page`. -/
def PassesStarts (es : List MemoryMap) (freed : List UInt32) : Prop :=
  ∀ e ∈ es, e.type = memoryAvailable → ∀ n, e.PageStart n → ∃ j ∈ freed, pageOf j = n

section

variable {mem : Memory} {info : Info} {es : List MemoryMap}

theorem passesStarts_iff_freed (hv : ValidMap mem info es) :
    (∃ fuel, (pmmCollectPages fuel mem info).done = true ∧
      PassesStarts es (pmmCollectPages fuel mem info).freed) ↔
    (∀ e ∈ es, e.type = memoryAvailable → e.Ends) ∧
      ∀ e ∈ es, e.type = memoryAvailable → ∀ n, e.PageStart n → ∃ f ∈ es, n ∈ f.freed := by
  have hiff := collect_done_iff hv.laid fun l =>
    ∀ e ∈ es, e.type = memoryAvailable → ∀ n, e.PageStart n → n ∈ l
  simp only [mem_map, mem_flatMap] at hiff
  exact hiff

/-- **When all pages are passed**: the loops end, and a page missed for one range is passed for
another. -/
theorem passesStarts_iff (hv : ValidMap mem info es) (hlow : ∀ e ∈ es, e.Low) :
    (∃ fuel, (pmmCollectPages fuel mem info).done = true ∧
      PassesStarts es (pmmCollectPages fuel mem info).freed) ↔
    (∀ e ∈ es, e.type = memoryAvailable → e.Ends) ∧
      ∀ e ∈ es, e.type = memoryAvailable → ∀ n, e.Misses n → ∃ f ∈ es, n ∈ f.freed := by
  refine (passesStarts_iff_freed hv).trans (and_congr_right fun _ => ?_)
  refine forall₃_congr fun e he ht => forall_congr' fun n => ?_
  rw [MemoryMap.misses_iff (hlow e he) ht]
  constructor
  · exact fun h hn => h hn.1
  · intro h hn
    by_cases hmem : n ∈ e.freed
    · exact ⟨e, he, hmem⟩
    · exact h ⟨hn, hmem⟩

end

/-- The range of 1 MB. -/
theorem passesStarts_lowRange : ValidMap twoRanges ⟨0, 0, 24, 0⟩ [lowRange] ∧
    (∀ e ∈ [lowRange], e.Low) ∧
    ∃ fuel, (pmmCollectPages fuel twoRanges ⟨0, 0, 24, 0⟩).done = true ∧
      PassesStarts [lowRange] (pmmCollectPages fuel twoRanges ⟨0, 0, 24, 0⟩).freed := by
  have hv : ValidMap twoRanges ⟨0, 0, 24, 0⟩ [lowRange] :=
    ⟨by decide, .cons (by decide) (by decide) (by decide) (.nil _)⟩
  have hlow : ∀ e ∈ [lowRange], e.Low := by
    intro e he
    rw [mem_singleton.mp he]
    exact ⟨rfl, rfl, by decide⟩
  refine ⟨hv, hlow, (passesStarts_iff hv hlow).mpr ⟨fun e he _ => ?_, fun e he _ n hn => ?_⟩⟩
  · rw [mem_singleton.mp he]
    exact .inr (by decide)
  · rw [mem_singleton.mp he] at hn
    rcases hn.2 with htop | ⟨-, hend⟩
    · exact absurd htop (by decide)
    · exact absurd hend (by decide)

/-- The last 64 kilobytes below 4 GB. -/
def topRange : MemoryMap := ⟨20, 0xFFFF0000, 0, 0x10000, 0, 1⟩

/-- A table with this range. -/
def topTable : Memory := ofWords [20, 0xFFFF0000, 0, 0x10000, 0, 1]

/-- Its end is zero, so nothing is passed for it. -/
theorem not_passesStarts_topRange : ValidMap topTable ⟨0, 0, 24, 0⟩ [topRange] ∧
    (∀ e ∈ [topRange], e.Low) ∧
    ¬∃ fuel, (pmmCollectPages fuel topTable ⟨0, 0, 24, 0⟩).done = true ∧
      PassesStarts [topRange] (pmmCollectPages fuel topTable ⟨0, 0, 24, 0⟩).freed := by
  have hv : ValidMap topTable ⟨0, 0, 24, 0⟩ [topRange] :=
    ⟨by decide, .cons (by decide) (by decide) (by decide) (.nil _)⟩
  refine ⟨hv, fun e he => ?_, fun hpass => ?_⟩
  · rw [mem_singleton.mp he]
    exact ⟨rfl, rfl, by decide⟩
  · obtain ⟨-, hfreed⟩ := (passesStarts_iff_freed hv).mp hpass
    obtain ⟨f, hf, hmem⟩ := hfreed topRange mem_cons_self rfl 0xFFFF0 (by decide)
    rw [mem_singleton.mp hf] at hmem
    obtain ⟨-, k, hk, -⟩ := MemoryMap.mem_freed.mp hmem
    exact Nat.not_lt_zero k hk

end AthenX.Multiboot
