import Mathlib

/-!
# `memmove`

The function of `libk/string.c` on a memory of which only some bytes may be touched. It is a loop of
stores at the offsets of the destination, upwards or, when the destination begins inside the source,
downwards.
-/

namespace AthenX.Memory

/-! ### The source -/

/-- The bytes that may be touched. -/
abbrev Mem := BitVec 32 → Option UInt8

/-- A store. -/
def Mem.store (m : Mem) (a : BitVec 32) (b : UInt8) : Option Mem :=
  if (m a).isSome then some (Function.update m a (some b)) else none

/-- The address at an offset. -/
def off (a : BitVec 32) (i : ℕ) : BitVec 32 := a + BitVec.ofNat 32 i

/-- A loop of stores at offsets from `dest`; `v` is what is stored. -/
def storeAll (v : Mem → ℕ → Option UInt8) (dest : BitVec 32) : List ℕ → Mem → Option Mem
  | [], m => some m
  | i :: is, m => do
      let b ← v m i
      let m ← m.store (off dest i) b
      storeAll v dest is m

/-- `memmove`. -/
def memmove (m : Mem) (dest src size : BitVec 32) : Option Mem :=
  let offsets := List.range size.toNat
  storeAll (fun m i => m (off src i)) dest
    (if src < dest ∧ dest < src + size then offsets.reverse else offsets) m

/-! ### A loop of stores -/

variable {v : Mem → ℕ → Option UInt8} {m m' : Mem} {dest src size : BitVec 32} {is : List ℕ}

/-- A loop none of whose stores changes what a later one stores. -/
theorem storeAll_spec (hread : ∀ i ∈ is, (v m i).isSome) (hmap : ∀ i ∈ is, (m (off dest i)).isSome)
    (hstable : is.Pairwise fun j i => ∀ m b, v (Function.update m (off dest j) b) i = v m i)
    (hne : is.Pairwise fun j i => off dest j ≠ off dest i) :
    ∃ m', storeAll v dest is m = some m' ∧ (∀ i ∈ is, m' (off dest i) = v m i) ∧
      ∀ a, (∀ i ∈ is, a ≠ off dest i) → m' a = m a := by
  induction is generalizing m with
  | nil => exact ⟨m, rfl, by simp, fun _ _ => rfl⟩
  | cons i is ih =>
    rw [List.pairwise_cons] at hstable hne
    rw [List.forall_mem_cons] at hread hmap
    obtain ⟨b, hb⟩ := Option.isSome_iff_exists.1 hread.1
    set m1 := Function.update m (off dest i) (some b) with hm1
    have hv : ∀ j ∈ is, v m1 j = v m j := fun j hj => hstable.1 j hj m (some b)
    have hother : ∀ j ∈ is, m1 (off dest j) = m (off dest j) := fun j hj =>
      Function.update_of_ne (hne.1 j hj).symm _ _
    obtain ⟨m', hrun, hdone, hrest⟩ := ih (fun j hj => by rw [hv j hj]; exact hread.2 j hj)
      (fun j hj => by rw [hother j hj]; exact hmap.2 j hj) hstable.2 hne.2
    refine ⟨m', ?_, List.forall_mem_cons.2 ⟨?_, fun j hj => (hdone j hj).trans (hv j hj)⟩, ?_⟩
    · simp only [storeAll, hb, Mem.store, hmap.1]
      exact hrun
    · rw [hrest _ hne.1, hm1, Function.update_self, hb]
    · intro a ha
      rw [List.forall_mem_cons] at ha
      rw [hrest a ha.2, hm1, Function.update_of_ne ha.1]

theorem toNat_off {a : BitVec 32} {i : ℕ} (h : a.toNat + i < 2 ^ 32) :
    (off a i).toNat = a.toNat + i := by
  simp only [off, BitVec.toNat_add, BitVec.toNat_ofNat]
  omega

theorem off_ne {a b : BitVec 32} {i j : ℕ} (ha : a.toNat + i < 2 ^ 32)
    (hb : b.toNat + j < 2 ^ 32) (h : a.toNat + i ≠ b.toNat + j) : off a i ≠ off b j := by
  intro heq
  have hnat := congrArg BitVec.toNat heq
  rw [toNat_off ha, toNat_off hb] at hnat
  exact h hnat

/-! ### The function -/

/-- The destination gets what the source held, whatever the overlap, and nothing else changes. -/
theorem memmove_spec (hsrc : src.toNat + size.toNat ≤ 2 ^ 32)
    (hdest : dest.toNat + size.toNat ≤ 2 ^ 32) (hread : ∀ i < size.toNat, (m (off src i)).isSome)
    (hmap : ∀ i < size.toNat, (m (off dest i)).isSome) :
    ∃ m', memmove m dest src size = some m' ∧
      (∀ i < size.toNat, m' (off dest i) = m (off src i)) ∧
      ∀ a, (∀ i < size.toNat, a ≠ off dest i) → m' a = m a := by
  set n := size.toNat with hn
  -- in the order of the loop no store hits a byte of the source that is still to be read
  obtain ⟨is, his, hmem, hord⟩ : ∃ is : List ℕ,
      memmove m dest src size = storeAll (fun m i => m (off src i)) dest is m ∧
        (∀ i, i ∈ is ↔ i < n) ∧
        is.Pairwise fun j i => j ≠ i ∧ dest.toNat + j ≠ src.toNat + i := by
    by_cases hc : src < dest ∧ dest < src + size
    · refine ⟨(List.range n).reverse, by rw [memmove, if_pos hc], by simp, ?_⟩
      have hlt : src.toNat < dest.toNat := hc.1
      exact List.pairwise_reverse.2 (List.pairwise_lt_range.imp fun h => ⟨by omega, by omega⟩)
    · refine ⟨List.range n, by rw [memmove, if_neg hc], by simp, ?_⟩
      refine List.pairwise_lt_range.imp_of_mem fun {j i} _ hi h => ⟨by omega, fun heq => hc ?_⟩
      rw [List.mem_range] at hi
      have hend : (src + size).toNat = src.toNat + n := by
        rw [BitVec.toNat_add]
        omega
      exact ⟨show src.toNat < dest.toNat by omega, show dest.toNat < (src + size).toNat by omega⟩
  have hne : is.Pairwise fun j i => off dest j ≠ off src i ∧ off dest j ≠ off dest i := by
    refine hord.imp_of_mem fun {j i} hj hi h => ?_
    rw [hmem] at hj hi
    exact ⟨off_ne (by omega) (by omega) h.2, off_ne (by omega) (by omega) (by omega)⟩
  rw [his]
  simp only [← hmem] at hread hmap ⊢
  exact storeAll_spec hread hmap (hne.imp fun h m b => Function.update_of_ne h.1.symm _ _)
    (hne.imp And.right)

/-- **`memmove`**, where every byte may be touched. -/
theorem memmove_bytes (m : BitVec 32 → UInt8) (dest src size : BitVec 32)
    (hsrc : src.toNat + size.toNat ≤ 2 ^ 32) (hdest : dest.toNat + size.toNat ≤ 2 ^ 32) :
    ∃ m' : BitVec 32 → UInt8,
      memmove (fun a => some (m a)) dest src size = some (fun a => some (m' a)) ∧
      (∀ i < size.toNat, m' (off dest i) = m (off src i)) ∧
      ∀ a, (∀ i < size.toNat, a ≠ off dest i) → m' a = m a := by
  obtain ⟨m1, hrun, hdone, hrest⟩ :=
    memmove_spec (m := fun a => some (m a)) hsrc hdest (fun _ _ => rfl) fun _ _ => rfl
  have hsome : ∀ a, m1 a = some ((m1 a).getD 0) := fun a => by
    by_cases ha : ∀ i < size.toNat, a ≠ off dest i
    · rw [hrest a ha]
      rfl
    · push Not at ha
      obtain ⟨i, hi, rfl⟩ := ha
      rw [hdone i hi]
      rfl
  refine ⟨fun a => (m1 a).getD 0, ?_, fun i hi => ?_, fun a ha => ?_⟩
  · rw [← funext hsome]
    exact hrun
  · dsimp only
    rw [hdone i hi]
    rfl
  · dsimp only
    rw [hrest a ha]
    rfl

/-- The source ends inside of the destination, at the end of the address space. -/
theorem memmove_bytes_end :
    ∃ m' : BitVec 32 → UInt8,
      memmove (fun a => some (a.setWidth 8).toNat.toUInt8) 0xFFFFFFFE 0xFFFFFFFD 2 =
        some (fun a => some (m' a)) ∧
      m' 0xFFFFFFFE = 0xFD ∧ m' 0xFFFFFFFF = 0xFE := by
  obtain ⟨m', hrun, hdone, -⟩ := memmove_bytes (fun a => (a.setWidth 8).toNat.toUInt8) 0xFFFFFFFE
    0xFFFFFFFD 2 (by decide) (by decide)
  exact ⟨m', hrun, hdone 0 (by decide), hdone 1 (by decide)⟩

end AthenX.Memory
