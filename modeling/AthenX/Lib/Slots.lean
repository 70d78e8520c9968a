import Mathlib

/-!
# Numbered slots

A fixed number of slots, each with an address, hold entries for the members of a list, or are blank.
A member is found by its key, which is the address of its slot.
-/

/-- The slots at `addr` hold the entries of `l`, each at its key, and are blank otherwise. -/
structure Slots {α κ ε : Type*} (n : ℕ) (addr : ℕ → κ) (blank : ε) (key : α → κ)
    (entry : α → ε) (c : ℕ → ε) (l : List α) : Prop where
  placed : ∀ x ∈ l, ∃ k < n, key x = addr k ∧ c k = entry x
  blank_or : ∀ k < n, c k = blank ∨ ∃ x ∈ l, key x = addr k
  apart : l.Pairwise fun x y => key x ≠ key y

namespace Slots

open List

variable {α κ ε : Type*} {n : ℕ} {addr : ℕ → κ} {blank : ε} {key : α → κ} {entry : α → ε}
  {c c' : ℕ → ε} {l l' : List α} {x : α} {k : ℕ}

theorem nil (h : ∀ k < n, c k = blank) : Slots n addr blank key entry c [] :=
  ⟨by simp, fun k hk => .inl (h k hk), List.Pairwise.nil⟩

/-- Without members all slots are blank. -/
theorem eq_blank (h : Slots n addr blank key entry c []) (hk : k < n) : c k = blank := by
  rcases h.blank_or k hk with hb | ⟨x, hx, -⟩
  · exact hb
  · cases hx

section

variable (h : Slots n addr blank key entry c l)

include h

theorem perm (hp : l.Perm l') : Slots n addr blank key entry c l' := by
  refine ⟨fun x hx => h.placed x (hp.mem_iff.mpr hx), fun k hk => ?_, hp.pairwise h.apart Ne.symm⟩
  rcases h.blank_or k hk with hb | ⟨x, hx, heq⟩
  · exact .inl hb
  · exact .inr ⟨x, hp.mem_iff.mp hx, heq⟩

section

variable (hinj : ∀ i < n, ∀ j < n, addr i = addr j → i = j)

include hinj

/-- **A slot is blank** if there are fewer members than slots. -/
theorem exists_blank (hlt : l.length < n) : ∃ k < n, c k = blank := by
  by_contra hc
  have hsub : (List.range n).map addr ⊆ l.map key := by
    intro a ha
    obtain ⟨i, hi, rfl⟩ := mem_map.mp ha
    rw [mem_range] at hi
    obtain ⟨x, hx, heq⟩ := (h.blank_or i hi).resolve_left fun hb => hc ⟨i, hi, hb⟩
    exact mem_map.mpr ⟨x, hx, heq⟩
  have hnd : ((List.range n).map addr).Nodup := by
    refine List.Nodup.map_on ?_ nodup_range
    intro i hi j hj heq
    exact hinj i (mem_range.mp hi) j (mem_range.mp hj) heq
  have hle := (hnd.subperm hsub).length_le
  rw [length_map, length_map, length_range] at hle
  omega

/-- A member is not found at a slot that is blank. -/
theorem key_ne (hentry : ∀ x, entry x ≠ blank) (hk : k < n) (hb : c k = blank) (hx : x ∈ l) :
    key x ≠ addr k := by
  obtain ⟨j, hj, hkey, hc⟩ := h.placed x hx
  intro heq
  rw [hinj j hj k hk (hkey.symm.trans heq), hb] at hc
  exact hentry x hc.symm

/-- **A member is entered** in a slot that was blank. -/
theorem put (hentry : ∀ x, entry x ≠ blank) (hk : k < n) (hb : c k = blank) (hkey : key x = addr k)
    (hx : c' k = entry x) (hc : ∀ j < n, j ≠ k → c' j = c j) :
    Slots n addr blank key entry c' (x :: l) := by
  have hne : ∀ y ∈ l, key y ≠ addr k := fun y hy => h.key_ne hinj hentry hk hb hy
  refine ⟨fun y hy => ?_, fun j hj => ?_, ?_⟩
  · rcases mem_cons.mp hy with rfl | hy
    · exact ⟨k, hk, hkey, hx⟩
    · obtain ⟨j, hj, hkey', hc'⟩ := h.placed y hy
      have hjk : j ≠ k := fun heq => hne y hy (heq ▸ hkey')
      exact ⟨j, hj, hkey', (hc j hj hjk).trans hc'⟩
  · by_cases hjk : j = k
    · exact .inr ⟨x, mem_cons_self, hjk ▸ hkey⟩
    · rw [hc j hj hjk]
      rcases h.blank_or j hj with hb | ⟨y, hy, heq⟩
      · exact .inl hb
      · exact .inr ⟨y, mem_cons_of_mem _ hy, heq⟩
  · refine pairwise_cons.mpr ⟨fun y hy heq => ?_, h.apart⟩
    exact hne y hy (heq.symm.trans hkey)

end

end

/-- **A member is removed**, and its slot is blank. -/
theorem clear (h : Slots n addr blank key entry c (x :: l))
    (hinj : ∀ i < n, ∀ j < n, addr i = addr j → i = j) (hk : k < n) (hkey : key x = addr k)
    (hb : c' k = blank) (hc : ∀ j < n, j ≠ k → c' j = c j) : Slots n addr blank key entry c' l := by
  obtain ⟨hne, hapart⟩ := pairwise_cons.mp h.apart
  refine ⟨fun y hy => ?_, fun j hj => ?_, hapart⟩
  · obtain ⟨j, hj, hkey', hc'⟩ := h.placed y (mem_cons_of_mem _ hy)
    have hjk : j ≠ k := fun heq => hne y hy (hkey.trans (heq ▸ hkey').symm)
    exact ⟨j, hj, hkey', (hc j hj hjk).trans hc'⟩
  · by_cases hjk : j = k
    · exact .inl (hjk ▸ hb)
    · rw [hc j hj hjk]
      rcases h.blank_or j hj with hb | ⟨y, hy, heq⟩
      · exact .inl hb
      · rcases mem_cons.mp hy with rfl | hy
        · exact absurd (hinj j hj k hk (heq.symm.trans hkey)) hjk
        · exact .inr ⟨y, hy, heq⟩

end Slots
