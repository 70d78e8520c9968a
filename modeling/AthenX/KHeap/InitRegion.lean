import AthenX.KHeap.Reallocate

/-!
# Building the node list

`init_memory_region` puts an array of nodes in front of their blocks, as many as there would be
blocks without the array. The region holds any bytes before, so the nodes are laid out byte by byte.

The loop sets the first node again, and its counter with it. It skips a block at the front, and one
node stays unused at the end. When the blocks do not fit, it is left early, and the last node points
to one that was not set. The array is aligned to 16, but `memory_region` is not.
-/

namespace AthenX.KHeap

open Linked Bytes List Function UInt32

/-! ### The function -/

/-- A `Node` in memory. -/
def loadNode (m : Memory) (p : NodePtr) : Node where
  addr := load32 m p
  size := load32 m (p + 4)
  next := if load32 m (p + 8) = 0 then none else some (load32 m (p + 8))
  allocated := m (p + 12) != 0
  firstBlock := m (p + 13) != 0
  numBlockUsed := load32 m (p + 16)
  totalRequestedMemory := load32 m (p + 20)

/-- The variables that `init_memory_region` sets, the addresses passed to `map`, and the nodes set.
-/
structure Region where
  memoryRegion : UInt32
  memoryRegionEnd : UInt32
  endOfNodeRegion : UInt32
  bytes : Memory
  mapped : List UInt32
  nodes : List NodePtr

/-- The stores of one iteration. `total_requested_memory` is left as it is. -/
def initNode (p addr next : UInt32) (m : Memory) : Memory :=
  let m := store32 p addr m
  let m := store32 (p + 4) 1024 m
  let m := store32 (p + 8) next m
  let m := Function.update m (p + 12) 0
  let m := Function.update m (p + 13) 0
  store32 (p + 16) 0 m

/-- The link of the node of iteration `i`. -/
def nextNode (numNodes : UInt32) (i : ℕ) (cur : UInt32) : UInt32 :=
  if UInt32.ofNat i < numNodes - 1 then cur + 24 else 0

/-- The loop of `init_memory_region`, from iteration `i` on, with `k` iterations to go. -/
def initNodes (node1 alloc limit numNodes : UInt32) : ℕ → ℕ → UInt32 → Region → Region
  | 0, _, _, r => r
  | k + 1, i, cur, r =>
      if limit < alloc + UInt32.ofNat i * 1024 then
        { r with bytes := store32 (node1 + 16) (UInt32.ofNat i) r.bytes }
      else
        let addr := alloc + UInt32.ofNat i * 1024
        initNodes node1 alloc limit numNodes k (i + 1) (cur + 24)
          { r with
            bytes := initNode cur addr (nextNode numNodes i cur) r.bytes
            mapped := if i % 4 = 0 then r.mapped ++ [addr] else r.mapped
            nodes := r.nodes ++ [cur] }

/-- `init_memory_region`. The array has a node for every 1024 bytes. -/
def initMemoryRegion (m : Memory) (startAddr size : UInt32) : Region :=
  let numNodes := size / 1024
  let bytesUsedByNodes := numNodes * 24
  let alignmentPadding := (16 - startAddr % 16) % 16
  let alignedStartAddr := startAddr + alignmentPadding
  let bytesAvailableForAllocation := size - bytesUsedByNodes - alignmentPadding
  let endOfNodeRegion := alignedStartAddr + bytesUsedByNodes
  let used := load32 m (startAddr + 16)
  initNodes startAddr endOfNodeRegion (alignedStartAddr + bytesAvailableForAllocation) numNodes
    (numNodes.toNat - 1) 1 alignedStartAddr
    { memoryRegion := startAddr
      memoryRegionEnd := startAddr + size
      endOfNodeRegion := endOfNodeRegion
      bytes := store32 (startAddr + 16) (used + numNodes) m
      mapped := []
      nodes := [] }

/-- The list at `memory_region` is `ns`: free nodes, with blocks that are apart, inside of the
region and behind the array. -/
structure Regular (start size : UInt32) (r : Region) (ns : List NodePtr) : Prop where
  chain : Chain (fun p => (loadNode r.bytes p).next) (some r.memoryRegion) ns
  initialised : ∀ q ∈ ns, q ∈ r.nodes
  blocks : ∀ q ∈ ns, (loadNode r.bytes q).size.toNat = blockSize
  free : ∀ q ∈ ns, (loadNode r.bytes q).allocated = false
  first : ∀ q ∈ ns, (loadNode r.bytes q).firstBlock = false
  apart : ns.Pairwise fun p q =>
    (loadNode r.bytes p).addr.toNat + blockSize ≤ (loadNode r.bytes q).addr.toNat ∨
      (loadNode r.bytes q).addr.toNat + blockSize ≤ (loadNode r.bytes p).addr.toNat
  inside : ∀ q ∈ ns, start.toNat ≤ (loadNode r.bytes q).addr.toNat ∧
    (loadNode r.bytes q).addr.toNat + blockSize ≤ start.toNat + size.toNat
  outside : ∀ q ∈ ns, (loadNode r.bytes q).addr.toNat + blockSize ≤ r.memoryRegion.toNat ∨
    r.endOfNodeRegion.toNat ≤ (loadNode r.bytes q).addr.toNat

/-- The list is in order, and the counter of its first node holds its length. -/
def InOrder (start size : UInt32) (r : Region) : Prop :=
  ∃ ns, Regular start size r ns ∧
    (loadNode r.bytes r.memoryRegion).numBlockUsed.toNat = ns.length

/-! ### One node -/

/-- The node at `p` has been set. -/
structure Blank (m : Memory) (p addr next : UInt32) : Prop where
  addr : load32 m p = addr
  size : load32 m (p + 4) = 1024
  next : load32 m (p + 8) = next
  allocated : m (p + 12) = 0
  first : m (p + 13) = 0
  used : load32 m (p + 16) = 0

section

variable {m m' : Memory} {p addr next cur : UInt32} {lo hi c k i t : ℕ}

theorem toNat_add_lit {d : UInt32} (h : p.toNat + d.toNat < 2 ^ 32) :
    (p + d).toNat = p.toNat + d.toNat := by
  exact Nat.mod_eq_of_lt h

theorem toNat_fields (hp : p.toNat + 24 ≤ 2 ^ 32) :
    (p + 4).toNat = p.toNat + 4 ∧ (p + 8).toNat = p.toNat + 8 ∧ (p + 12).toNat = p.toNat + 12 ∧
      (p + 13).toNat = p.toNat + 13 ∧ (p + 16).toNat = p.toNat + 16 := by
  refine ⟨?_, ?_, ?_, ?_, ?_⟩
  · exact toNat_add_lit (show _ + 4 < _ by omega)
  · exact toNat_add_lit (show _ + 8 < _ by omega)
  · exact toNat_add_lit (show _ + 12 < _ by omega)
  · exact toNat_add_lit (show _ + 13 < _ by omega)
  · exact toNat_add_lit (show _ + 16 < _ by omega)

theorem initNode_spec (m : Memory) (addr next : UInt32) (hp : p.toNat + 24 ≤ 2 ^ 32) :
    Blank (initNode p addr next m) p addr next ∧
      SameOutside p.toNat (p.toNat + 24) m (initNode p addr next m) := by
  obtain ⟨h4, h8, h12, h13, h16⟩ := toNat_fields hp
  -- the memory after each store, and what the stores behind it leave alone
  let m₁ := store32 p addr m
  let m2 := store32 (p + 4) 1024 m₁
  let m3 := store32 (p + 8) next m2
  let m4 := update m3 (p + 12) 0
  let m5 := update m4 (p + 13) 0
  have g5 : SameOutside (p.toNat + 16) (p.toNat + 24) m5 (initNode p addr next m) :=
    .store32 0 m5 (by omega) (by omega) (by omega)
  have g4 : SameOutside (p.toNat + 13) (p.toNat + 24) m4 (initNode p addr next m) :=
    (SameOutside.update 0 m4 (by omega) (by omega)).trans (g5.mono (by omega) le_rfl)
  have g3 : SameOutside (p.toNat + 12) (p.toNat + 24) m3 (initNode p addr next m) :=
    (SameOutside.update 0 m3 (by omega) (by omega)).trans (g4.mono (by omega) le_rfl)
  have g2 : SameOutside (p.toNat + 8) (p.toNat + 24) m2 (initNode p addr next m) :=
    (SameOutside.store32 next m2 (by omega) (by omega) (by omega)).trans (g3.mono (by omega) le_rfl)
  have g1 : SameOutside (p.toNat + 4) (p.toNat + 24) m₁ (initNode p addr next m) :=
    (SameOutside.store32 1024 m₁ (by omega) (by omega) (by omega)).trans (g2.mono (by omega) le_rfl)
  refine ⟨⟨?_, ?_, ?_, ?_, ?_, load32_store32 (by omega)⟩,
    (SameOutside.store32 addr m le_rfl (by omega) (by omega)).trans (g1.mono (by omega) le_rfl)⟩
  · exact (g1.load32 (by omega) (by omega)).trans (load32_store32 (by omega))
  · exact (g2.load32 (by omega) (by omega)).trans (load32_store32 (by omega))
  · exact (g3.load32 (by omega) (by omega)).trans (load32_store32 (by omega))
  · exact (g4 (p + 12) (by omega)).trans (update_self ..)
  · exact (g5 (p + 13) (by omega)).trans (update_self ..)

theorem Blank.congr (h : Blank m p addr next) (hs : SameOutside lo hi m m')
    (hp : p.toNat + 24 ≤ 2 ^ 32) (hout : p.toNat + 24 ≤ lo ∨ hi ≤ p.toNat) :
    Blank m' p addr next := by
  obtain ⟨h4, h8, h12, h13, h16⟩ := toNat_fields hp
  exact ⟨(hs.load32 (by omega) (by omega)).trans h.addr,
    (hs.load32 (by omega) (by omega)).trans h.size, (hs.load32 (by omega) (by omega)).trans h.next,
    (hs (p + 12) (by omega)).trans h.allocated, (hs (p + 13) (by omega)).trans h.first,
    (hs.load32 (by omega) (by omega)).trans h.used⟩

/-! ### The loop -/

/-- The node with index `t` of an array of nodes. -/
def nodeAt (base : UInt32) (t : ℕ) : NodePtr := base + UInt32.ofNat (24 * t)

theorem nodeAt_zero (base : UInt32) : nodeAt base 0 = base := UInt32.add_zero base

theorem nodeAt_succ (base : UInt32) (t : ℕ) : nodeAt base (t + 1) = nodeAt (base + 24) t := by
  rw [nodeAt, nodeAt, UInt32.add_assoc, Nat.mul_add, Nat.add_comm, UInt32.ofNat_add]
  rfl

theorem nodeAt_add_24 (base : UInt32) (t : ℕ) : nodeAt base t + 24 = nodeAt base (t + 1) := by
  rw [nodeAt, nodeAt, UInt32.add_assoc, Nat.mul_add, UInt32.ofNat_add]
  rfl

theorem toNat_nodeAt {base : UInt32} (h : base.toNat + 24 * t < 2 ^ 32) :
    (nodeAt base t).toNat = base.toNat + 24 * t := toNat_add_ofNat h

section

variable (node1 alloc limit numNodes : UInt32)

/-- The number of iterations before the one at which the loop is left. -/
def fitting : ℕ → ℕ → ℕ
  | 0, _ => 0
  | k + 1, i => if limit < alloc + UInt32.ofNat i * 1024 then 0 else fitting k (i + 1) + 1

/-- The stores of `c` iterations. -/
def setNodes : ℕ → ℕ → UInt32 → Memory → Memory
  | 0, _, _, m => m
  | c + 1, i, cur, m => setNodes c (i + 1) (cur + 24)
      (initNode cur (alloc + UInt32.ofNat i * 1024) (nextNode numNodes i cur) m)

theorem fitting_le : ∀ k i, fitting alloc limit k i ≤ k
  | 0, _ => le_rfl
  | k + 1, i => by
      rw [fitting]
      split
      · exact Nat.zero_le _
      · exact Nat.succ_le_succ (fitting_le k (i + 1))

theorem fitting_eq_iff : ∀ {k i : ℕ}, fitting alloc limit k i = k ↔
    ∀ t < k, ¬limit < alloc + UInt32.ofNat (i + t) * 1024 := by
  intro k
  induction k with
  | zero => exact fun {i} => iff_of_true rfl fun t ht => absurd ht (Nat.not_lt_zero t)
  | succ k ih =>
    intro i
    rw [fitting]
    split
    · next hexit => exact iff_of_false (Nat.succ_ne_zero k).symm fun h => h 0 (by omega) hexit
    · next hfits =>
      rw [Nat.succ_inj, ih]
      constructor
      · intro h t ht
        cases t with
        | zero => exact hfits
        | succ t => rw [← Nat.add_assoc, Nat.add_right_comm]; exact h t (by omega)
      · intro h t ht
        have := h (t + 1) (by omega)
        rwa [← Nat.add_assoc, Nat.add_right_comm] at this

/-- **The loop**: the stores of the iterations before it is left, and then the counter. -/
theorem bytes_initNodes : ∀ (k i : ℕ) (cur : UInt32) (r : Region),
    (initNodes node1 alloc limit numNodes k i cur r).bytes =
      let c := fitting alloc limit k i
      let m := setNodes alloc numNodes c i cur r.bytes
      if c = k then m else store32 (node1 + 16) (UInt32.ofNat (i + c)) m := by
  intro k
  induction k with
  | zero => exact fun i cur r => rfl
  | succ k ih =>
    intro i cur r
    rw [initNodes, fitting]
    by_cases hexit : limit < alloc + UInt32.ofNat i * 1024
    · rw [if_pos hexit, if_pos hexit]
      exact (if_neg (Nat.succ_ne_zero k).symm).symm
    · rw [if_neg hexit, if_neg hexit, ih]
      refine if_congr Nat.succ_inj.symm rfl ?_
      rw [Nat.add_right_comm]
      rfl

theorem nodes_initNodes : ∀ (k i : ℕ) (cur : UInt32) (r : Region),
    (initNodes node1 alloc limit numNodes k i cur r).nodes =
      r.nodes ++ (List.range (fitting alloc limit k i)).map (nodeAt cur) := by
  intro k
  induction k with
  | zero => exact fun i cur r => (append_nil _).symm
  | succ k ih =>
    intro i cur r
    rw [initNodes, fitting]
    split
    · exact (append_nil _).symm
    · rw [ih, range_succ_eq_map, map_cons, map_map, nodeAt_zero, append_assoc]
      refine congrArg (r.nodes ++ cur :: ·) ?_
      exact map_congr_left fun t _ => (nodeAt_succ cur t).symm

theorem globals_initNodes : ∀ (k i : ℕ) (cur : UInt32) (r : Region),
    (initNodes node1 alloc limit numNodes k i cur r).memoryRegion = r.memoryRegion ∧
      (initNodes node1 alloc limit numNodes k i cur r).memoryRegionEnd = r.memoryRegionEnd ∧
      (initNodes node1 alloc limit numNodes k i cur r).endOfNodeRegion = r.endOfNodeRegion := by
  intro k
  induction k with
  | zero => exact fun i cur r => ⟨rfl, rfl, rfl⟩
  | succ k ih =>
    intro i cur r
    rw [initNodes]
    split
    · exact ⟨rfl, rfl, rfl⟩
    · exact ih (i + 1) (cur + 24) _

theorem setNodes_spec : ∀ (c i : ℕ) (cur : UInt32) (m : Memory), cur.toNat + 24 * c ≤ 2 ^ 32 →
    SameOutside cur.toNat (cur.toNat + 24 * c) m (setNodes alloc numNodes c i cur m) ∧
      ∀ t < c, Blank (setNodes alloc numNodes c i cur m) (nodeAt cur t)
        (alloc + UInt32.ofNat (i + t) * 1024) (nextNode numNodes (i + t) (nodeAt cur t)) := by
  intro c
  induction c with
  | zero =>
    intro i cur m _
    exact ⟨SameOutside.refl _ _ m, fun t ht => absurd ht (Nat.not_lt_zero t)⟩
  | succ c ih =>
    intro i cur m hcur
    have hspec := initNode_spec (p := cur) m (alloc + UInt32.ofNat i * 1024)
      (nextNode numNodes i cur) (by omega)
    by_cases hwrap : cur.toNat + 24 < 2 ^ 32
    · have h24 : (cur + 24).toNat = cur.toNat + 24 := toNat_add_lit hwrap
      obtain ⟨hsame, hblank⟩ := ih (i + 1) (cur + 24)
        (initNode cur (alloc + UInt32.ofNat i * 1024) (nextNode numNodes i cur) m) (by omega)
      refine ⟨(hspec.2.mono le_rfl (by omega)).trans (hsame.mono (by omega) (by omega)), ?_⟩
      intro t ht
      cases t with
      | zero =>
        rw [nodeAt_zero]
        exact hspec.1.congr hsame (by omega) (by omega)
      | succ t =>
        have := hblank t (by omega)
        rwa [← nodeAt_succ, Nat.add_right_comm, Nat.add_assoc] at this
    · -- the last node ends at the last address
      obtain rfl : c = 0 := by omega
      refine ⟨hspec.2, fun t ht => ?_⟩
      obtain rfl : t = 0 := by omega
      rw [nodeAt_zero]
      exact hspec.1

end

/-! ### The region -/

theorem Blank.loadNode (h : Blank m p addr next) : loadNode m p =
    ⟨addr, 1024, if next = 0 then none else some next, false, false, 0, load32 m (p + 20)⟩ := by
  rw [KHeap.loadNode, h.addr, h.size, h.next, h.allocated, h.first, h.used]
  rfl

/-- The values that `init_memory_region` starts its loop with. -/
structure Shape (r : Region) (start size aligned alloc limit : UInt32) (m₁ : Memory) : Prop where
  aligned_eq : aligned.toNat = start.toNat + (16 - start.toNat % 16) % 16
  alloc_eq : alloc.toNat = aligned.toNat + 24 * (size.toNat / 1024)
  limit_eq : limit.toNat + 24 * (size.toNat / 1024) = start.toNat + size.toNat
  region_eq : r = initNodes start alloc limit (size / 1024) (size.toNat / 1024 - 1) 1 aligned
      ⟨start, start + size, alloc, m₁, [], []⟩

variable {r : Region} {start size aligned alloc limit : UInt32} {m₁ : Memory} {ns : List NodePtr}

theorem toNat_offset (hi : i < 4194304) : (UInt32.ofNat i * 1024).toNat = 1024 * i := by
  have hlt : i < 2 ^ 32 := Nat.lt_trans hi (by decide)
  rw [UInt32.toNat_mul, UInt32.toNat_ofNat_of_lt' hlt, show (1024 : UInt32).toNat = 1024 by rfl]
  omega

theorem exists_shape (m : Memory) (hsize : 4096 ≤ size.toNat)
    (hend : start.toNat + size.toNat ≤ 2 ^ 32) :
    ∃ aligned alloc limit m₁,
      Shape (initMemoryRegion m start size) start size aligned alloc limit m₁ := by
  have hn : (size / 1024).toNat = size.toNat / 1024 := UInt32.toNat_div size 1024
  have hbytes : (size / 1024 * 24).toNat = 24 * (size.toNat / 1024) := by
    rw [UInt32.toNat_mul, show (24 : UInt32).toNat = 24 by rfl]
    omega
  have hmod : (start % 16).toNat = start.toNat % 16 := UInt32.toNat_mod start 16
  have hpad : ((16 - start % 16) % 16).toNat = (16 - start.toNat % 16) % 16 := by
    rw [UInt32.toNat_mod, UInt32.toNat_sub_of_le _ _ (UInt32.le_iff_toNat_le.mpr ?_)]
    · rfl
    · rw [hmod]
      show _ ≤ 16
      omega
  have haligned := toNat_add_lit (p := start) (d := (16 - start % 16) % 16) (by omega)
  rw [hpad] at haligned
  have halloc := toNat_add_lit (p := start + (16 - start % 16) % 16) (d := size / 1024 * 24)
    (by omega)
  have hsub1 : (size - size / 1024 * 24).toNat = size.toNat - 24 * (size.toNat / 1024) := by
    rw [UInt32.toNat_sub_of_le _ _ (UInt32.le_iff_toNat_le.mpr (by omega)), hbytes]
  have hsub2 : (size - size / 1024 * 24 - (16 - start % 16) % 16).toNat =
      size.toNat - 24 * (size.toNat / 1024) - (16 - start.toNat % 16) % 16 := by
    rw [UInt32.toNat_sub_of_le _ _ (UInt32.le_iff_toNat_le.mpr (by omega)), hsub1, hpad]
  have hlimit := toNat_add_lit (p := start + (16 - start % 16) % 16)
    (d := size - size / 1024 * 24 - (16 - start % 16) % 16) (by omega)
  refine ⟨_, _, _, store32 (start + 16) (load32 m (start + 16) + size / 1024) m, haligned,
    by rw [halloc, hbytes], by rw [hlimit]; omega, ?_⟩
  rw [initMemoryRegion, hn]

namespace Shape

section

variable (h : Shape r start size aligned alloc limit m₁)

include h

theorem nodes : r.nodes =
      (List.range (fitting alloc limit (size.toNat / 1024 - 1) 1)).map (nodeAt aligned) := by
  rw [h.region_eq, nodes_initNodes, nil_append]

theorem globals : r.memoryRegion = start ∧ r.memoryRegionEnd = start + size ∧
      r.endOfNodeRegion = alloc := by
  rw [h.region_eq]
  exact globals_initNodes _ _ _ _ _ _ _ _

theorem aligned_iff : aligned = start ↔ start.toNat % 16 = 0 := by
  have halign := h.aligned_eq
  rw [← UInt32.toNat_inj]
  omega

variable (hend : start.toNat + size.toNat ≤ 2 ^ 32)

include hend

theorem nextNode_eq (ht : t < size.toNat / 1024 - 1) :
    (if nextNode (size / 1024) (1 + t) (nodeAt aligned t) = 0 then none
      else some (nextNode (size / 1024) (1 + t) (nodeAt aligned t))) =
      if t < size.toNat / 1024 - 2 then some (nodeAt aligned (t + 1)) else none := by
  have hn : (size / 1024).toNat = size.toNat / 1024 := UInt32.toNat_div size 1024
  have hsub : (size / 1024 - 1).toNat = size.toNat / 1024 - 1 := by
    rw [UInt32.toNat_sub_of_le _ _ (UInt32.le_iff_toNat_le.mpr (show 1 ≤ _ by omega))]
    rfl
  have hi : (UInt32.ofNat (1 + t)).toNat = 1 + t := toNat_ofNat_of_lt' (by
    show _ < 2 ^ 32
    omega)
  have halign := h.aligned_eq
  have hnode : (nodeAt aligned (t + 1)).toNat = aligned.toNat + 24 * (t + 1) :=
    toNat_nodeAt (by omega)
  have hiff : UInt32.ofNat (1 + t) < size / 1024 - 1 ↔ t < size.toNat / 1024 - 2 := by
    rw [lt_iff_toNat_lt]
    omega
  rw [nextNode, nodeAt_add_24]
  by_cases hlast : t < size.toNat / 1024 - 2
  · rw [if_pos (hiff.mpr hlast), if_pos hlast, if_neg]
    intro hz
    rw [hz] at hnode
    change 0 = _ at hnode
    omega
  · rw [if_neg fun hlt => hlast (hiff.mp hlt), if_neg hlast, if_pos rfl]

section

variable (hfull : fitting alloc limit (size.toNat / 1024 - 1) 1 = size.toNat / 1024 - 1)

include hfull

/-- **The nodes of a loop that is not left early.** -/
theorem loadNode_of_full (ht : t < size.toNat / 1024 - 1) :
    ∃ v, loadNode r.bytes (nodeAt aligned t) = ⟨alloc + UInt32.ofNat (1 + t) * 1024, 1024,
        if t < size.toNat / 1024 - 2 then some (nodeAt aligned (t + 1)) else none,
        false, false, 0, v⟩ := by
  have halign := h.aligned_eq
  have hspec := setNodes_spec alloc (size / 1024) (size.toNat / 1024 - 1) 1 aligned m₁ (by omega)
  have hbytes : r.bytes = setNodes alloc (size / 1024) (size.toNat / 1024 - 1) 1 aligned m₁ := by
    rw [h.region_eq, bytes_initNodes, hfull]
    exact if_pos rfl
  refine ⟨load32 r.bytes (nodeAt aligned t + 20), ?_⟩
  rw [hbytes, (hspec.2 t ht).loadNode, h.nextNode_eq hend ht]

theorem chain_of_full (hsize : 4096 ≤ size.toNat) :
    Chain (fun p => (loadNode r.bytes p).next) (some aligned)
      ((List.range (size.toNat / 1024 - 1)).map (nodeAt aligned)) := by
  obtain ⟨k, hk⟩ : ∃ k, size.toNat / 1024 - 1 = k + 1 := ⟨size.toNat / 1024 - 2, by omega⟩
  have hzero : some aligned = some (nodeAt aligned 0) := by rw [nodeAt_zero]
  rw [hk, hzero]
  refine chain_map_range fun t ht => ?_
  obtain ⟨v, hv⟩ := h.loadNode_of_full hend hfull (t := t) (by omega)
  rw [hv, show k = size.toNat / 1024 - 2 by omega]

theorem addr_of_full (halign : aligned = start)
    (hroom : 24 * (size.toNat / 1024) ≤ size.toNat % 1024) (ht : t < size.toNat / 1024 - 1) :
    (loadNode r.bytes (nodeAt aligned t)).addr.toNat =
      start.toNat + 24 * (size.toNat / 1024) + 1024 * (1 + t) := by
  obtain ⟨v, hv⟩ := h.loadNode_of_full hend hfull ht
  have halloc := h.alloc_eq
  have hmul := toNat_offset (i := 1 + t) (by omega)
  rw [halign] at halloc
  rw [hv]
  rw [toNat_add_lit (by omega), hmul, halloc]

theorem fields_of_full {q : NodePtr} (hq : q ∈ r.nodes) :
    (loadNode r.bytes q).size.toNat = blockSize ∧
      (loadNode r.bytes q).allocated = false ∧
      (loadNode r.bytes q).firstBlock = false ∧
      (loadNode r.bytes q).numBlockUsed = 0 := by
  rw [h.nodes, hfull, mem_map] at hq
  obtain ⟨t, ht, rfl⟩ := hq
  obtain ⟨v, hv⟩ := h.loadNode_of_full hend hfull (mem_range.mp ht)
  rw [hv]
  exact ⟨rfl, rfl, rfl, rfl⟩

theorem le_of_full (halign : aligned = start) : size.toNat / 1024 ≤ 42 := by
  by_contra hmany
  have halloc := h.alloc_eq
  have hlimit := h.limit_eq
  rw [halign] at halloc
  -- the first block that does not fit
  have hfits := (fitting_eq_iff alloc limit).mp hfull
    ((size.toNat - 48 * (size.toNat / 1024)) / 1024) (by omega)
  have hmul := toNat_offset (i := 1 + (size.toNat - 48 * (size.toNat / 1024)) / 1024) (by omega)
  rw [lt_iff_toNat_lt, toNat_add_lit (by omega)] at hfits
  omega

end

theorem next_of_exit (halign : aligned = start)
    (hexit : fitting alloc limit (size.toNat / 1024 - 1) 1 < size.toNat / 1024 - 1)
    (ht : t < fitting alloc limit (size.toNat / 1024 - 1) 1) :
    (loadNode r.bytes (nodeAt aligned t)).next ≠ none := by
  subst halign
  set c := fitting alloc limit (size.toNat / 1024 - 1) 1 with hc
  have hspec := setNodes_spec alloc (size / 1024) c 1 aligned m₁ (by omega)
  have hnode : (nodeAt aligned t).toNat = aligned.toNat + 24 * t := toNat_nodeAt (by omega)
  have h8 : (nodeAt aligned t + 8).toNat = (nodeAt aligned t).toNat + 8 :=
    toNat_add_lit (show _ + 8 < _ by omega)
  have h16 : (aligned + 16).toNat = aligned.toNat + 16 := toNat_add_lit (show _ + 16 < _ by omega)
  -- the counter of the first node is written, and no link
  have hcount : SameOutside (aligned.toNat + 16) (aligned.toNat + 20)
      (setNodes alloc (size / 1024) c 1 aligned m₁) r.bytes := by
    rw [h.region_eq, bytes_initNodes]
    rw [if_neg (Nat.ne_of_lt hexit)]
    exact .store32 _ _ (by omega) (by omega) (by omega)
  have hnext := hcount.load32 (p := nodeAt aligned t + 8) (by omega) (by omega)
  rw [(hspec.2 t ht).next] at hnext
  have heq := h.nextNode_eq hend (t := t) (by omega)
  rw [if_pos (show t < size.toNat / 1024 - 2 by omega), ← hnext] at heq
  show (if _ = 0 then none else some _) ≠ none
  rw [heq]
  exact Option.some_ne_none _

theorem full_of_regular (hsize : 4096 ≤ size.toNat) (hr : Regular start size r ns) :
    aligned = start ∧ fitting alloc limit (size.toNat / 1024 - 1) 1 = size.toNat / 1024 - 1 := by
  have hle := fitting_le alloc limit (size.toNat / 1024 - 1) 1
  have hchain := hr.chain
  rw [h.globals.1] at hchain
  obtain ⟨l, hl, -⟩ := hchain.eq_cons
  have halign := h.aligned_eq
  -- the first node is one of the array
  have hmem : start ∈ r.nodes := hr.initialised start (hl ▸ mem_cons_self)
  rw [h.nodes, mem_map] at hmem
  obtain ⟨t, ht, hstart⟩ := hmem
  rw [mem_range] at ht
  have hnode : (nodeAt aligned t).toNat = aligned.toNat + 24 * t := toNat_nodeAt (by omega)
  rw [hstart] at hnode
  have heq : aligned = start := UInt32.toNat_inj.mp (by omega)
  refine ⟨heq, by_contra fun hexit => ?_⟩
  obtain ⟨q, hq, hnone⟩ := hchain.exists_next_eq_none
  have hmem := hr.initialised q hq
  rw [h.nodes, mem_map] at hmem
  obtain ⟨t', ht', rfl⟩ := hmem
  exact h.next_of_exit hend heq (Nat.lt_of_le_of_ne hle hexit) (mem_range.mp ht') hnone

section

variable (halign : aligned = start) (hroom : 24 * (size.toNat / 1024) ≤ size.toNat % 1024)

include halign hroom

theorem full_of_room : fitting alloc limit (size.toNat / 1024 - 1) 1 = size.toNat / 1024 - 1 := by
  rw [fitting_eq_iff]
  intro t ht
  have halloc := h.alloc_eq
  have hlimit := h.limit_eq
  have hmul := toNat_offset (i := 1 + t) (by omega)
  rw [halign] at halloc
  rw [lt_iff_toNat_lt, toNat_add_lit (by omega)]
  omega

theorem nodes_of_room : r.nodes = (List.range (size.toNat / 1024 - 1)).map (nodeAt start) ∧
      ∀ t < size.toNat / 1024 - 1, (loadNode r.bytes (nodeAt start t)).addr.toNat =
          start.toNat + 24 * (size.toNat / 1024) + 1024 * (1 + t) := by
  have hfull := h.full_of_room hend halign hroom
  have hnodes := h.nodes
  rw [hfull, halign] at hnodes
  refine ⟨hnodes, fun t ht => ?_⟩
  have haddr := h.addr_of_full hend hfull halign hroom ht
  rwa [halign] at haddr

theorem regular_of_room (hsize : 4096 ≤ size.toNat) : Regular start size r r.nodes := by
  have hfull := h.full_of_room hend halign hroom
  obtain ⟨hnodes, haddr⟩ := h.nodes_of_room hend halign hroom
  obtain ⟨hregion, -, hnodeEnd⟩ := h.globals
  have halloc := h.alloc_eq
  have hrange : ∀ q ∈ r.nodes, ∃ t < size.toNat / 1024 - 1, (loadNode r.bytes q).addr.toNat =
        start.toNat + 24 * (size.toNat / 1024) + 1024 * (1 + t) := by
    intro q hq
    rw [hnodes, mem_map] at hq
    obtain ⟨t, ht, rfl⟩ := hq
    exact ⟨t, mem_range.mp ht, haddr t (mem_range.mp ht)⟩
  refine ⟨?_, fun q hq => hq, fun q hq => (h.fields_of_full hend hfull hq).1,
    fun q hq => (h.fields_of_full hend hfull hq).2.1,
    fun q hq => (h.fields_of_full hend hfull hq).2.2.1, ?_, fun q hq => ?_, fun q hq => ?_⟩
  · have hchain := h.chain_of_full hend hfull hsize
    rw [halign] at hchain
    rwa [hregion, hnodes]
  · rw [hnodes, pairwise_map]
    refine pairwise_lt_range.imp_of_mem fun {t t'} ht ht' hlt => .inl ?_
    rw [haddr t (mem_range.mp ht), haddr t' (mem_range.mp ht'), blockSize]
    omega
  · obtain ⟨t, ht, heq⟩ := hrange q hq
    rw [blockSize]
    omega
  · obtain ⟨t, ht, heq⟩ := hrange q hq
    rw [hnodeEnd, halloc, halign]
    omega

end

theorem room_of_regular (hsize : 4096 ≤ size.toNat) (hr : Regular start size r ns) :
    24 * (size.toNat / 1024) ≤ size.toNat % 1024 := by
  obtain ⟨halign, hfull⟩ := h.full_of_regular hend hsize hr
  have hchain := h.chain_of_full hend hfull hsize
  have hns := hr.chain
  rw [h.globals.1] at hns
  rw [halign] at hchain
  have hlast : nodeAt aligned (size.toNat / 1024 - 2) ∈ ns := by
    rw [hns.unique hchain, halign]
    exact List.mem_map_of_mem (List.mem_range.mpr (by omega))
  obtain ⟨v, hv⟩ := h.loadNode_of_full hend hfull (t := size.toNat / 1024 - 2) (by omega)
  have hinside := hr.inside _ hlast
  have hfew := h.le_of_full hend hfull halign
  have halloc := h.alloc_eq
  have hmul := toNat_offset (i := 1 + (size.toNat / 1024 - 2)) (by omega)
  rw [halign] at halloc
  rw [hv] at hinside
  rw [UInt32.toNat_add, blockSize] at hinside
  omega

/-- The counter of the first node is zero when the loop has not been left early. -/
theorem not_inOrder (hsize : 4096 ≤ size.toNat) : ¬InOrder start size r := by
  rintro ⟨ns, hr, hcount⟩
  obtain ⟨-, hfull⟩ := h.full_of_regular hend hsize hr
  obtain ⟨l, rfl, -⟩ := hr.chain.eq_cons
  have hfirst := hr.initialised _ mem_cons_self
  rw [(h.fields_of_full hend hfull hfirst).2.2.2] at hcount
  exact absurd hcount (Nat.succ_ne_zero _).symm

end

end Shape

/-- **When the list is in order, and that its length is never counted**: the region starts at a
multiple of 16, with room for the nodes behind its last kilobyte. But then the counter is zero. -/
theorem regular_init (m : Memory) (hsize : 4096 ≤ size.toNat)
    (hend : start.toNat + size.toNat ≤ 2 ^ 32) :
    ((∃ ns, Regular start size (initMemoryRegion m start size) ns) ↔
        start.toNat % 16 = 0 ∧ 24 * (size.toNat / 1024) ≤ size.toNat % 1024) ∧
      ¬InOrder start size (initMemoryRegion m start size) := by
  obtain ⟨aligned, alloc, limit, m₁, h⟩ := exists_shape m hsize hend
  refine ⟨?_, h.not_inOrder hend hsize⟩
  constructor
  · rintro ⟨ns, hr⟩
    exact ⟨h.aligned_iff.mp (h.full_of_regular hend hsize hr).1, h.room_of_regular hend hsize hr⟩
  · rintro ⟨halign, hroom⟩
    exact ⟨_, h.regular_of_room hend (h.aligned_iff.mpr halign) hroom hsize⟩

end

/-- A region of five kilobytes less one byte has room for its four nodes. -/
theorem regular_init_fiveKilobytes :
    (∃ ns, Regular 0x1000 5119 (initMemoryRegion (fun _ => 0) 0x1000 5119) ns) ∧
      ¬InOrder 0x1000 5119 (initMemoryRegion (fun _ => 0) 0x1000 5119) := by
  have hsize : 4096 ≤ (5119 : UInt32).toNat := by decide
  have hend : (0x1000 : UInt32).toNat + (5119 : UInt32).toNat ≤ 2 ^ 32 := by decide
  obtain ⟨hiff, hnot⟩ := regular_init (fun _ => 0) hsize hend
  exact ⟨hiff.mpr (by decide), hnot⟩

/-- In four kilobytes the counter is zero, and the last block ends behind the region. -/
theorem not_inOrder_fourKilobytes :
    ¬InOrder 0x1000 4096 (initMemoryRegion (fun _ => 0) 0x1000 4096) := by
  have hsize : 4096 ≤ (4096 : UInt32).toNat := by decide
  have hend : (0x1000 : UInt32).toNat + (4096 : UInt32).toNat ≤ 2 ^ 32 := by decide
  obtain ⟨aligned, alloc, limit, m₁, h⟩ := exists_shape (fun _ => 0) hsize hend
  exact h.not_inOrder hend hsize

end AthenX.KHeap
