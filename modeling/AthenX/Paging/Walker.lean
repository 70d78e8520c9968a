import AthenX.Paging.Window

/-!
# The page tables as a finite map

`map` and `unmap` edit one finite map from pages to frames, and `get_mapping` looks pages up in it,
below the mounted directory. A page for a new page table has to be a frame that no table uses. The
window is part of the address space, and its page for table `i` is there exactly when the table is.
-/

namespace AthenX.Paging

/-! ### One operation -/

/-- The entry of page `n` was set to `v`, and at most its page table is new. -/
structure Writes (m m' : Machine) (D n : ℕ) (v : UInt32) : Prop where
  selfMapped : SelfMapped m' D
  pte : ∀ k < 1047552, pte m' D k = if k = n then v else pte m D k
  table : m'.mem D (n / 1024) ≠ 0
  keeps : ∀ i < 1024, m.mem D i ≠ 0 → m'.mem D i = m.mem D i
  other : ∀ i < 1024, i ≠ n / 1024 → m'.mem D i = m.mem D i

/-- If `va` has no page table, `pmm_alloc_page` has a fresh frame for it. -/
def HasFrame (m : Machine) (D : ℕ) (va : UInt32) : Prop :=
  m.pde D va = 0 → ∃ p m₁, pmmAllocPage m = some (p, m₁) ∧ Fresh m D p

section

variable {m : Machine} {D : ℕ} {va : UInt32}

section

variable (h : SelfMapped m D) (hva : va < kernelDirVirtual)

include h hva

theorem writes_setEntry (hne : m.pde D va ≠ 0) (v : UInt32) :
    Writes m (setEntry m D va v) D (va.toNat / 4096) v where
  selfMapped := selfMapped_setEntry h hva hne v
  pte := fun _ hk => pte_setEntry h hva hne v (by omega)
  table := by
    rw [setEntry_directory h hva hne, Nat.div_div_eq_div_mul]
    exact hne
  keeps := fun i _ _ => setEntry_directory h hva hne v i
  other := fun i _ _ => setEntry_directory h hva hne v i

/-- **`map` returns and sets the entry of one page**, with a new page table or not. -/
theorem map_writes (hf : HasFrame m D va) (pa flags : UInt32) : ∃ m', map m va pa flags = some m' ∧
      Writes m m' D (va.toNat / 4096) (pteOf pa flags) := by
  by_cases hz : m.pde D va = 0
  · obtain ⟨p, m1, ha, hp⟩ := hf hz
    obtain ⟨hself, hne, hmap⟩ := map_of_absent h hva hz ha hp pa flags
    obtain ⟨hmem, h1, hp1⟩ := h.pmmAllocPage ha hp
    have hd := h.index_lt hva hz
    have hw := writes_setEntry hself hva hne (pteOf pa flags)
    have hdir : ∀ i, i ≠ va.toNat / 4194304 →
        (newTable m1 D va p).mem D i = m.mem D i := by
      intro i hi
      simp only [newTable, Machine.pokes]
      rw [if_neg fun hc => hp.1 hc.1.symm, Machine.poke_mem, if_neg fun hc => hi hc.2, hmem]
    refine ⟨_, hmap, hw.selfMapped, ?_, hw.table, ?_, ?_⟩
    · -- below the window the new table is as empty as the missing one was
      intro k hk
      rw [hw.pte k hk, pte_newTable h1 hd (by rwa [Machine.pde, hmem]) hp1 (by omega),
        if_neg (show k ≠ 1047552 + va.toNat / 4194304 by omega), pte_congr hmem]
    · intro i hi hi0
      have hid : i ≠ va.toNat / 4194304 := fun hc => hi0 (hc ▸ hz)
      rw [setEntry_directory hself hva hne, hdir i hid]
    · intro i hi hid
      rw [Nat.div_div_eq_div_mul] at hid
      rw [setEntry_directory hself hva hne, hdir i hid]
  · exact ⟨_, map_of_present h hva hz pa flags, writes_setEntry h hva hz _⟩

/-- **`unmap` returns and clears the entry of one page.** -/
theorem unmap_writes (hne : m.pde D va ≠ 0) :
    ∃ m', unmap m va = some m' ∧ Writes m m' D (va.toNat / 4096) 0 :=
  ⟨_, unmap_eq h hne, writes_setEntry h hva hne 0⟩

end

end

/-! ### Runs -/

/-- The operations of a run. -/
inductive Op where
  | map (va pa flags : UInt32)
  | unmap (va : UInt32)
  deriving DecidableEq, Repr

/-- The page an operation is on. -/
def Op.page : Op → ℕ
  | .map va _ _ => va.toNat / 4096
  | .unmap va   => va.toNat / 4096

/-- Is the operation a `map`? -/
def Op.isMap : Op → Bool
  | .map _ _ _ => true
  | .unmap _   => false

/-- The last operation on page `n`; the latest operation comes first. -/
def lastOp (ops : List Op) (n : ℕ) : Option Op := ops.find? fun o => o.page == n

/-- The runs from `m₀`, with the operations made so far, the latest first. -/
inductive Run (m₀ : Machine) (D : ℕ) : List Op → Machine → Prop
  | start : Run m₀ D [] m₀
  | map {ops : List Op} {m m' : Machine} {va pa flags : UInt32} : Run m₀ D ops m →
      va < kernelDirVirtual → flags < 0x1000 → HasFrame m D va →
      map m va pa flags = some m' → Run m₀ D (.map va pa flags :: ops) m'
  | unmap {ops : List Op} {m m' : Machine} {va : UInt32} : Run m₀ D ops m →
      va < kernelDirVirtual → m.pde D va ≠ 0 →
      unmap m va = some m' → Run m₀ D (.unmap va :: ops) m'

/-- The entry that the last operation on a page leaves. -/
def entryAfter (e : UInt32) : Option Op → UInt32
  | some (.map _ pa flags) => pteOf pa flags
  | some (.unmap _)        => 0
  | none                   => e

theorem lastOp_cons (o : Op) (ops : List Op) (n : ℕ) :
    lastOp (o :: ops) n = if n = o.page then some o else lastOp ops n := by
  rw [lastOp, List.find?_cons, lastOp]
  by_cases h : n = o.page
  · simp [h]
  · rw [if_neg h, show (o.page == n) = false by simpa using fun hc => h hc.symm]

/-- What holds after a run. -/
structure After (m₀ m : Machine) (D : ℕ) (ops : List Op) : Prop where
  selfMapped : SelfMapped m D
  pte : ∀ n < 1047552, pte m D n = entryAfter (pte m₀ D n) (lastOp ops n)
  keeps : ∀ i < 1024, m₀.mem D i ≠ 0 → m.mem D i = m₀.mem D i
  table : ∀ i < 1024, m.mem D i ≠ 0 ↔
    m₀.mem D i ≠ 0 ∨ ∃ o ∈ ops, o.isMap = true ∧ o.page / 1024 = i
  small : ∀ va pa flags, Op.map va pa flags ∈ ops → flags.toNat < 4096

variable {m m₀ : Machine} {D : ℕ} {ops : List Op} {o : Op}

theorem After.step {m' : Machine} {e : UInt32}
    (h : After m₀ m D ops) (he : ∀ e', entryAfter e' (some o) = e)
    (hw : Writes m m' D o.page e) (hmap : o.isMap = true ∨ m.mem D (o.page / 1024) ≠ 0)
    (hsmall : ∀ va pa flags, o = .map va pa flags → flags.toNat < 4096) :
    After m₀ m' D (o :: ops) where
  selfMapped := hw.selfMapped
  pte := by
    intro n hn
    rw [hw.pte n hn, lastOp_cons]
    by_cases hno : n = o.page
    · rw [if_pos hno, if_pos hno, he]
    · rw [if_neg hno, if_neg hno, h.pte n hn]
  keeps := by
    intro i hi hi0
    have hm : m.mem D i ≠ 0 := by rw [h.keeps i hi hi0]; exact hi0
    rw [hw.keeps i hi hm, h.keeps i hi hi0]
  table := by
    intro i hi
    by_cases hio : i = o.page / 1024
    · subst hio
      refine iff_of_true hw.table ?_
      rcases hmap with hm | hm
      · exact .inr ⟨o, List.mem_cons_self, hm, rfl⟩
      · rcases (h.table _ hi).mp hm with h0 | ⟨o', ho', hrest⟩
        · exact .inl h0
        · exact .inr ⟨o', List.mem_cons_of_mem _ ho', hrest⟩
    · rw [hw.other i hi hio, h.table i hi]
      simp only [List.mem_cons, exists_eq_or_imp,
        show ¬o.page / 1024 = i from fun hc => hio hc.symm, and_false, false_or]
  small := by
    intro va pa flags hmem
    rcases List.mem_cons.mp hmem with heq | hmem
    · exact hsmall va pa flags heq.symm
    · exact h.small va pa flags hmem

/-- **A run edits the finite map.** -/
theorem after_of_run (h0 : SelfMapped m₀ D) (h : Run m₀ D ops m) : After m₀ m D ops := by
  induction h with
  | start =>
    exact ⟨h0, fun _ _ => rfl, fun _ _ _ => rfl, by simp, by simp⟩
  | @map ops m m' va pa flags _ hva hfl hf heq ih =>
    have hfl' : flags.toNat < 4096 := UInt32.lt_iff_toNat_lt.mp hfl
    obtain ⟨m'', heq', hw⟩ := map_writes ih.selfMapped hva hf pa flags
    obtain rfl : m' = m'' := Option.some.inj (heq.symm.trans heq')
    refine ih.step (fun _ => rfl) hw (.inl rfl) ?_
    rintro va' pa' flags' ⟨⟩
    exact hfl'
  | @unmap ops m m' va _ hva hne heq ih =>
    obtain ⟨m'', heq', hw⟩ := unmap_writes ih.selfMapped hva hne
    obtain rfl : m' = m'' := Option.some.inj (heq.symm.trans heq')
    refine ih.step (fun _ => rfl) hw (.inr ?_) ?_
    · rw [show Op.page (.unmap va) / 1024 = va.toNat / 4194304 from Nat.div_div_eq_div_mul _ _ _]
      exact hne
    · rintro _ _ _ ⟨⟩

theorem lastOp_mem {n : ℕ} (h : lastOp ops n = some o) : o ∈ ops :=
  List.mem_of_find?_eq_some h

theorem reading_pteOf (pa : UInt32) {flags : UInt32} (hf : flags.toNat < 4096) (va : UInt32) :
    reading (pteOf pa flags) va = some ((pa &&& pageAddrMask) + (va &&& pageFlagsMask)) := by
  rw [reading, if_neg (ne_zero_of_present (entry_pteOf pa hf).1), pteOf_aligned pa hf]

/-- **`get_mapping` in the window** reports the directory, the table of a window page. -/
theorem getMapping_window (h : SelfMapped m D) {v : UInt32} (hv : kernelTablesVirtual ≤ v) :
    getMapping m v = some (reading (m.mem D (pgtabIdxFromAddr v).toNat) v) := by
  have hv' := UInt32.le_iff_toNat_le.mp hv
  rw [kernelTablesVirtual, show (0xFFC00000 : UInt32).toNat = 0xFFC00000 by decide] at hv'
  have hlt := v.toNat_lt
  rw [getMapping_eq h, pte, show v.toNat / 4096 / 1024 = 1023 by omega,
    if_neg (ne_zero_of_present h.self.1), h.self.2, toNat_pgtabIdx]

/-- **The page-table walker is a correct finite map below the window**: `get_mapping` answers by the
last operation on the page, or as at the start. A page of the window reports the entry of the table
it shows, which stays once it is there. The next operation returns. -/
theorem getMapping_of_run {m₀ : Machine} {D : ℕ} (h₀ : SelfMapped m₀ D) {ops : List Op}
    {m : Machine} (hrun : Run m₀ D ops m) :
    (∀ v, v < kernelTablesVirtual → getMapping m v =
      match lastOp ops (v.toNat / 4096) with
      | some (.map _ pa _) => some (some ((pa &&& pageAddrMask) + (v &&& pageFlagsMask)))
      | some (.unmap _)    => some none
      | none               => getMapping m₀ v) ∧
    (∀ v, kernelTablesVirtual ≤ v →
      getMapping m v = some (reading (m.mem D (pgtabIdxFromAddr v).toNat) v) ∧
      (m₀.mem D (pgtabIdxFromAddr v).toNat ≠ 0 →
        m.mem D (pgtabIdxFromAddr v).toNat = m₀.mem D (pgtabIdxFromAddr v).toNat) ∧
      (m.mem D (pgtabIdxFromAddr v).toNat ≠ 0 ↔
        m₀.mem D (pgtabIdxFromAddr v).toNat ≠ 0 ∨
          ∃ o ∈ ops, o.isMap = true ∧ o.page / 1024 = (pgtabIdxFromAddr v).toNat)) ∧
    (∀ va, va < kernelDirVirtual →
      (HasFrame m D va → ∀ pa flags, (map m va pa flags).isSome = true) ∧
      (m.pde D va ≠ 0 → (unmap m va).isSome = true)) := by
  have h := after_of_run h₀ hrun
  refine ⟨?_, ?_, ?_⟩
  · intro v hv
    have hv' := UInt32.lt_iff_toNat_lt.mp hv
    rw [kernelTablesVirtual, show (0xFFC00000 : UInt32).toNat = 0xFFC00000 by decide] at hv'
    rw [getMapping_eq h.selfMapped, getMapping_eq h₀, h.pte _ (by omega)]
    cases hlast : lastOp ops (v.toNat / 4096) with
    | none => rfl
    | some o =>
      cases o with
      | map va pa flags =>
        exact congrArg some (reading_pteOf pa (h.small va pa flags (lastOp_mem hlast)) v)
      | unmap va => rfl
  · intro v hv
    have hi : (pgtabIdxFromAddr v).toNat < 1024 := by rw [toNat_pgtabIdx]; omega
    exact ⟨getMapping_window h.selfMapped hv, h.keeps _ hi, h.table _ hi⟩
  · intro va hva
    refine ⟨?_, ?_⟩
    · intro hf pa flags
      obtain ⟨m', hm', -⟩ := map_writes h.selfMapped hva hf pa flags
      rw [hm', Option.isSome_some]
    · intro hne
      rw [unmap_eq h.selfMapped hne, Option.isSome_some]

/-- A directory in frame 16, page tables 1021 and 1022, and one free page on the stack in frame 20.
-/
def sampleMachine : Machine where
  mem f i :=
    if f = 16 then
      if i = 1021 then 0x12003 else if i = 1022 then 0x11003 else if i = 1023 then 0x10003 else 0
    else if f = 17 then if i = 1023 then 0x10003 else 0
    else if f = 18 then if i = 1023 then 0x14003 else 0
    else if f = 20 then if i = 0 then 0x15000 else 0
    else 0
  cr3 := 0x10000
  pagingEnabled := true
  currentDirectory := ⟨0x10000, kernelDirVirtual, kernelTablesVirtual⟩
  kernelDirectory := ⟨0x10000, kernelDirVirtual, kernelTablesVirtual⟩
  canMap := true
  pmmPagingActive := true
  pmmStackLoc := pmmStackStart + 4
  pmmStackMax := pmmStackStart + pageSize
  pmmLocation := 0x13000

theorem sampleMachine_directory {i : ℕ} (hi : i < 1023) (h : sampleMachine.mem 16 i ≠ 0) :
    i = 1021 ∨ i = 1022 := by
  by_contra hc
  apply h
  simp only [sampleMachine, if_true]
  rw [if_neg (by omega), if_neg (by omega), if_neg (by omega)]

theorem selfMapped_sampleMachine : SelfMapped sampleMachine 16 where
  pagingEnabled := rfl
  canMap := rfl
  cr3 := by decide
  directory := rfl
  pages := rfl
  kernelPages := rfl
  self := by unfold Entry; decide
  mount_ne := by decide
  mount := by unfold Entry; decide
  present := by
    intro i hi h
    rcases sampleMachine_directory hi h with rfl | rfl <;> decide
  ne_dir := by
    intro i hi h
    rcases sampleMachine_directory hi h with rfl | rfl <;> decide
  inj := by
    intro i hi j hj h h'
    rcases sampleMachine_directory hi h with rfl | rfl <;>
      rcases sampleMachine_directory hj h' with rfl | rfl <;> decide

theorem pmmAllocPage_sampleMachine : pmmAllocPage sampleMachine =
    some (0x15000, sampleMachine.popped) :=
  pmmAllocPage_pop rfl (by decide)

theorem fresh_sampleMachine : Fresh sampleMachine 16 0x15000 := by
  refine ⟨by decide, ?_⟩
  intro i hi h
  rcases sampleMachine_directory hi h with rfl | rfl <;> decide

theorem run_sampleMachine : ∃ m, Run sampleMachine 16 [.map 0 0x7000 3] m ∧
    map sampleMachine 0 0x7000 3 = some m := by
  have hf : HasFrame sampleMachine 16 0 :=
    fun _ => ⟨_, _, pmmAllocPage_sampleMachine, fresh_sampleMachine⟩
  obtain ⟨m, hm, -⟩ := map_writes selfMapped_sampleMachine
    (show (0 : UInt32) < kernelDirVirtual by decide) hf 0x7000 3
  exact ⟨m, .map .start (by decide) (by decide) hf hm, hm⟩

theorem getMapping_of_run_sampleMachine : SelfMapped sampleMachine 16 ∧
    ∃ m, Run sampleMachine 16 [.map 0 0x7000 3] m ∧ getMapping m 0x123 = some (some 0x7123) := by
  obtain ⟨m, hrun, -⟩ := run_sampleMachine
  have h := (getMapping_of_run selfMapped_sampleMachine hrun).1 0x123 (by decide)
  exact ⟨selfMapped_sampleMachine, m, hrun, h⟩

/-- Without an operation on the window a page of it goes from `0` to `1`: the `map` created its
table. -/
theorem getMapping_window_sampleMachine : SelfMapped sampleMachine 16 ∧
    getMapping sampleMachine 0xFFC00000 = some none ∧
    ∃ m, Run sampleMachine 16 [.map 0 0x7000 3] m ∧
      lastOp [.map 0 0x7000 3] ((0xFFC00000 : UInt32).toNat / 4096) = none ∧
      getMapping m 0xFFC00000 = some (some 0x15000) := by
  obtain ⟨m, hrun, hm⟩ := run_sampleMachine
  refine ⟨selfMapped_sampleMachine, by decide, m, hrun, by decide, ?_⟩
  have hz : sampleMachine.mem 16 ((0 : UInt32).toNat / 4194304) = 0 := by decide
  obtain ⟨-, -, hm'⟩ := map_of_absent selfMapped_sampleMachine
    (show (0 : UInt32) < kernelDirVirtual by decide) hz pmmAllocPage_sampleMachine
    fresh_sampleMachine 0x7000 3
  cases hm.symm.trans hm'
  decide

end AthenX.Paging
