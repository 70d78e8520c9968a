import AthenX.Paging.Walker

/-!
# The page stack by itself

Descriptions of a machine with a stack of free pages differ in what they say about the page tables,
and agree on `Pile m D used free`: the stack pointer, the pages `used` of the stack, and the pages
`free` on it.
-/

namespace AthenX.Paging

open List UInt32

variable {m : Machine} {D j : ℕ} {q va : UInt32}

/-- The stack is made of the pages `used`, which `D` maps, and holds the pages `free`. -/
structure Pile (m : Machine) (D : ℕ) (used free : List UInt32) : Prop where
  active : m.pmmPagingActive = true
  max : m.pmmStackMax.toNat = 0xFF7FF000 + 4096 * used.length
  loc : m.pmmStackLoc.toNat = 0xFF7FF000 + 4 * free.length
  room : free.length ≤ 1024 * used.length
  capacity : used.length ≤ 1024
  backed : ∀ (k : ℕ) (q : UInt32), used[k]? = some q →
    Entry (pte m D (1046527 + k)) (frameOf q)
  content : ∀ (j : ℕ) (p : UInt32), free[j]? = some p →
    ∃ q, used[j / 1024]? = some q ∧ m.mem (frameOf q) (j % 1024) = p

/-- Frame `f` is the frame of a page on the stack of free pages. -/
def FreeFrame (m : Machine) (f : ℕ) : Prop :=
  ∃ va p : UInt32, pmmStackStart ≤ va ∧ va < m.pmmStackLoc ∧ va.toNat % 4 = 0 ∧
    m.load va = some p ∧ frameOf p = f

/-- The addresses of the stack are translated as the page tables of `D` say. -/
def Walks (m : Machine) (D : ℕ) : Prop :=
  ∀ va : UInt32, 0xFF7FF000 ≤ va.toNat → va.toNat < 0xFFBFF000 → ∀ f,
    Entry (pte m D (va.toNat / 4096)) f → m.translate va = some (f, wordOf va)

theorem SelfMapped.translate_of_entry {f : ℕ} (h : SelfMapped m D)
    (he : Entry (pte m D (va.toNat / 4096)) f) : m.translate va = some (f, wordOf va) := by
  have hlt := va.toNat_lt
  obtain ⟨hz, he⟩ := entry_of_pte he
  have hp := h.present_of_ne (show va.toNat / 4194304 < 1024 by omega) hz
  simp only [Machine.translate, h.pagingEnabled, if_true, h.cr3, toNat_pgdirIdx,
    toNat_pgtabIdx, hp, he.1, he.2]

theorem SelfMapped.walks (h : SelfMapped m D) : Walks m D :=
  fun _ _ _ _ he => h.translate_of_entry he

namespace Pile

variable {m m' : Machine} {D : ℕ} {used free : List UInt32} {p : UInt32}

/-- The words of the stack after a push: the new one in page `q`, and the older ones elsewhere. -/
theorem content_push
    (hq : used[free.length / 1024]? = some q)
    (hinj : ∀ i s, used[i]? = some s → frameOf s = frameOf q → i = free.length / 1024)
    (hcontent : ∀ (j : ℕ) (r : UInt32), free[j]? = some r →
      ∃ s, used[j / 1024]? = some s ∧ m.mem (frameOf s) (j % 1024) = r) (j : ℕ) (r : UInt32)
    (hr : (free ++ [p])[j]? = some r) :
    ∃ s, used[j / 1024]? = some s ∧
      (m.poke (frameOf q) (free.length % 1024) p).mem (frameOf s) (j % 1024) = r := by
  rcases Nat.lt_trichotomy j free.length with hj | rfl | hj
  · rw [List.getElem?_append_left hj] at hr
    obtain ⟨s, hs, hval⟩ := hcontent j r hr
    refine ⟨s, hs, ?_⟩
    rw [Machine.poke_mem, if_neg, hval]
    rintro ⟨hf, hjw⟩
    have := hinj _ s hs hf
    omega
  · obtain rfl : p = r := by simpa using hr
    exact ⟨q, hq, by rw [Machine.poke_mem, if_pos ⟨rfl, rfl⟩]⟩
  · have hlt := (List.getElem?_eq_some_iff.mp hr).1
    rw [length_append, length_singleton] at hlt
    omega

section

variable (h : Pile m D used free) (hw : Walks m D)

include h hw

/-- Word `j` of the stack lies in its page `j / 1024`. -/
theorem translate_slot (hva : va.toNat = 0xFF7FF000 + 4 * j) (hq : used[j / 1024]? = some q) :
    m.translate va = some (frameOf q, j % 1024) := by
  have hlt : j / 1024 < used.length := (List.getElem?_eq_some_iff.mp hq).1
  have hcap := h.capacity
  have hpage : va.toNat / 4096 = 1046527 + j / 1024 := by omega
  have hword : wordOf va = j % 1024 := by rw [wordOf_eq]; omega
  have he := h.backed _ _ hq
  rw [← hpage] at he
  rw [hw va (by omega) (by omega) _ he, hword]

theorem load_slot (hva : va.toNat = 0xFF7FF000 + 4 * j) (hp : free[j]? = some p) :
    m.load va = some p := by
  obtain ⟨q, hq, hval⟩ := h.content j p hp
  rw [Machine.load, h.translate_slot hw hva hq, Option.map_some, hval]

theorem freeFrame_iff (f : ℕ) : FreeFrame m f ↔ ∃ p ∈ free, frameOf p = f := by
  have hloc := h.loc
  have hroom := h.room
  have hcap := h.capacity
  constructor
  · rintro ⟨va, p, hlo, hhi, hal, hload, hf⟩
    rw [le_iff_toNat_le, pmmStackStart,
      show (0xFF7FF000 : UInt32).toNat = 0xFF7FF000 by decide] at hlo
    rw [lt_iff_toNat_lt] at hhi
    have hj : (va.toNat - 0xFF7FF000) / 4 < free.length := by omega
    have hva : va.toNat = 0xFF7FF000 + 4 * ((va.toNat - 0xFF7FF000) / 4) := by omega
    have hp := h.load_slot hw hva (List.getElem?_eq_getElem hj)
    rw [hload] at hp
    exact ⟨p, Option.some.inj hp ▸ getElem_mem hj, hf⟩
  · rintro ⟨p, hp, hf⟩
    obtain ⟨j, hj⟩ := mem_iff_getElem?.mp hp
    have hlt : j < free.length := (List.getElem?_eq_some_iff.mp hj).1
    have hva : (UInt32.ofNat (0xFF7FF000 + 4 * j)).toNat = 0xFF7FF000 + 4 * j := by
      rw [toNat_ofNat']
      omega
    refine ⟨UInt32.ofNat (0xFF7FF000 + 4 * j), p, ?_, ?_, ?_, h.load_slot hw hva hj, hf⟩
    · rw [le_iff_toNat_le, hva]
      exact Nat.le_add_right _ _
    · rw [lt_iff_toNat_lt]
      omega
    · omega

end

/-- **Taking a page**: the page on top of the stack is returned. -/
theorem pop (h : Pile m D used (free ++ [p])) (hw : Walks m D) :
    pmmAllocPage m = some (p, m.popped) ∧
      Pile m.popped D used free := by
  have hloc := h.loc
  have hsub : (m.pmmStackLoc - 4).toNat = 0xFF7FF000 + 4 * free.length := by
    rw [UInt32.toNat_sub_of_le _ _ (UInt32.le_iff_toNat_le.mpr (by rw [hloc]; simp; omega)), hloc]
    simp
    omega
  refine ⟨pmmAllocPage_pop h.active (h.load_slot hw hsub (by simp)), h.active, h.max, hsub,
    ?_, h.capacity, h.backed, ?_⟩
  · have hroom := h.room
    rw [length_append] at hroom
    omega
  · intro j r hr
    have hj : j < free.length := (List.getElem?_eq_some_iff.mp hr).1
    exact h.content j r (by rw [List.getElem?_append_left hj]; exact hr)

/-- The stack depends on two directory entries, their page tables and its own pages. -/
theorem frames (h : Pile m D used free) (hactive : m'.pmmPagingActive = m.pmmPagingActive)
    (hmax : m'.pmmStackMax = m.pmmStackMax) (hloc : m'.pmmStackLoc = m.pmmStackLoc)
    (hpte : ∀ n, 1046527 ≤ n → n < 1047551 → pte m' D n = pte m D n)
    (hused : ∀ q ∈ used, ∀ i, m'.mem (frameOf q) i = m.mem (frameOf q) i) :
    Pile m' D used free where
  active := hactive.trans h.active
  max := by rw [hmax]; exact h.max
  loc := by rw [hloc]; exact h.loc
  room := h.room
  capacity := h.capacity
  backed := by
    intro k q hq
    have hk : k < used.length := (List.getElem?_eq_some_iff.mp hq).1
    have hcap := h.capacity
    rw [hpte _ (by omega) (by omega)]
    exact h.backed k q hq
  content := by
    intro j r hr
    obtain ⟨q, hq, hval⟩ := h.content j r hr
    exact ⟨q, hq, by rw [hused q (mem_of_getElem? hq)]; exact hval⟩

theorem unique {used' free' : List UInt32} (h : Pile m D used free) (h' : Pile m D used' free') :
    free = free' := by
  have hlen : free.length = free'.length := by
    have hloc := h.loc
    have hloc' := h'.loc
    omega
  refine ext_getElem? fun j => ?_
  rcases Nat.lt_or_ge j free.length with hj | hj
  · obtain ⟨q, hq, hword⟩ := h.content j _ (List.getElem?_eq_getElem hj)
    obtain ⟨q', hq', hword'⟩ := h'.content j _ (List.getElem?_eq_getElem (hlen ▸ hj))
    have hframe : frameOf q = frameOf q' :=
      (h.backed _ q hq).2.symm.trans (h'.backed _ q' hq').2
    rw [hframe] at hword
    rw [List.getElem?_eq_getElem hj, List.getElem?_eq_getElem (hlen ▸ hj), ← hword, ← hword']
  · rw [List.getElem?_eq_none hj, List.getElem?_eq_none (hlen ▸ hj)]

/-- **Freeing a page** while there is room: the page is put on top. -/
theorem push (h : Pile m D used free) (hw : Walks m D)
    (hlow : ¬p &&& pageAddrMask < m.pmmLocation) (hroom : free.length < 1024 * used.length)
    (hinj : ∀ (i j : ℕ) (q r : UInt32), used[i]? = some q → used[j]? = some r →
      frameOf q = frameOf r → i = j)
    (hpte : ∀ q ∈ used, ∀ i v n, 1046527 ≤ n → n < 1047551 →
      pte (m.poke (frameOf q) i v) D n = pte m D n) :
    ∃ q ∈ used, pmmFreePage m p =
        some { m.poke (frameOf q) (free.length % 1024) (p &&& pageAddrMask) with
          pmmStackLoc := m.pmmStackLoc + 4 } ∧
      Pile { m.poke (frameOf q) (free.length % 1024) (p &&& pageAddrMask) with
          pmmStackLoc := m.pmmStackLoc + 4 } D used (free ++ [p &&& pageAddrMask]) := by
  have hlt : free.length / 1024 < used.length := by omega
  obtain ⟨q, hq, hmem⟩ : ∃ q, used[free.length / 1024]? = some q ∧ q ∈ used :=
    ⟨_, List.getElem?_eq_getElem hlt, getElem_mem hlt⟩
  have hloc := h.loc
  have hmax := h.max
  have hcap := h.capacity
  have htr := h.translate_slot hw hloc hq
  refine ⟨q, hmem, ?_, h.active, h.max, ?_, ?_, hcap, ?_, ?_⟩
  · have hfull : ¬m.pmmStackMax ≤ m.pmmStackLoc := by
      rw [le_iff_toNat_le]
      omega
    simp only [pmmFreePage, if_neg hlow, if_neg hfull, Machine.store, htr]
    rfl
  · show (m.pmmStackLoc + 4).toNat = _
    rw [UInt32.toNat_add, List.length_append, List.length_singleton,
      show (4 : UInt32).toNat = 4 by decide]
    omega
  · rw [length_append, length_singleton]
    omega
  · intro k r hr
    have hk : k < used.length := (List.getElem?_eq_some_iff.mp hr).1
    have he := h.backed k r hr
    rw [← hpte q hmem (free.length % 1024) (p &&& pageAddrMask) _ (by omega) (by omega)] at he
    exact he
  · exact content_push hq (fun i s hs hf => hinj _ _ s q hs hq hf) h.content

end Pile

end AthenX.Paging
