import AthenX.Files.OpenFiles

/-!
# Closing the files at power-off

`fs_shutdown` of `drivers/VFS/file.c` closes every entry of `open_files`. But `fclose` moves the
later ones down, and the loop goes on with the next index: the files at even positions are closed,
the others stay open.
-/

namespace AthenX.Files

open Table List

/-! ### The function -/

/-- The loop of `fs_shutdown` from entry `i` on, at most `k` times, and the handles closed. -/
def shutdownLoop : ℕ → ℕ → FileLib → Option (FileLib × List Handle)
  | 0, _, s => some (s, [])
  | k + 1, i, s =>
      if i < s.openFilesCount then
        match s.openFiles i with
        | none => shutdownLoop k (i + 1) s
        | some f =>
            (fclose s f).bind fun s' =>
              (shutdownLoop k (i + 1) s').map fun (s'', closed) => (s'', f :: closed)
      else some (s, [])

/-- `fs_shutdown`. The count bounds the iterations. -/
def fsShutdown (fsActive : Bool) (s : FileLib) : Option (FileLib × List Handle) :=
  if fsActive then shutdownLoop s.openFilesCount 0 s else some (s, [])

/-- The function returns, each open file was closed once, and none is left. -/
def ClosesAll (fsActive : Bool) (s : FileLib) (live : List Handle) : Prop :=
  ∃ s' closed, fsShutdown fsActive s = some (s', closed) ∧ (∀ f ∈ live, closed.count f = 1) ∧
    s'.openFilesCount = 0

/-! ### Every other entry -/

section

variable {α : Type}

/-- The entries at even positions. -/
def evens : List α → List α
  | [] => []
  | [a] => [a]
  | a :: _ :: l => a :: evens l

/-- The entries at odd positions. -/
def odds : List α → List α
  | [] => []
  | [_] => []
  | _ :: b :: l => b :: odds l

theorem odds_eq_nil_iff (l : List α) : odds l = [] ↔ l.length ≤ 1 := by
  cases l with
  | nil => simp [odds]
  | cons a l =>
    cases l with
    | nil => simp [odds]
    | cons b l => simp [odds]

end

/-! ### The loop -/

section

variable {s : FileLib} {kept rest : List Handle} {f : Handle}

theorem shutdownLoop_end {i : ℕ} (hi : s.openFilesCount ≤ i) (k : ℕ) :
    shutdownLoop k i s = some (s, []) := by
  cases k with
  | zero => rfl
  | succ k => simp [shutdownLoop, if_neg (Nat.not_lt.mpr hi)]

theorem shutdownLoop_succ (h : Listed s (kept ++ f :: rest)) :
    ∃ s', Listed s' (kept ++ rest) ∧ ∀ k, shutdownLoop (k + 1) kept.length s =
      (shutdownLoop k (kept.length + 1) s').map fun (s'', closed) => (s'', f :: closed) := by
  have hlt : kept.length < s.openFilesCount := by
    rw [h.length, length_append, length_cons]
    omega
  obtain ⟨g, hg, hentry⟩ := h.entry hlt
  obtain rfl : f = g := by simpa using hg
  obtain ⟨a, n, hclose, hl⟩ := h.fclose (mem_append_right _ mem_cons_self)
  have hnot : f ∉ kept := fun hmem =>
    disjoint_of_nodup_append h.nodup hmem mem_cons_self
  rw [erase_append_right _ hnot, erase_cons_head] at hl
  refine ⟨_, hl, fun k => ?_⟩
  simp [shutdownLoop, if_pos hlt, hentry, hclose]

/-- **The loop**: with `kept` in front of the index, every other entry of `rest` is closed. -/
theorem shutdownLoop_eq : ∀ (rest kept : List Handle) (k : ℕ) (s : FileLib),
    Listed s (kept ++ rest) → rest.length ≤ k →
    ∃ s', shutdownLoop k kept.length s = some (s', evens rest) ∧ Listed s' (kept ++ odds rest) := by
  intro rest
  induction rest using evens.induct with
  | case1 =>
    intro kept k s h _
    exact ⟨s, shutdownLoop_end (by rw [h.length, append_nil]) k, h⟩
  | case2 f =>
    intro kept k s h hk
    obtain ⟨k, rfl⟩ := Nat.exists_eq_add_of_le' hk
    obtain ⟨s', hl, hstep⟩ := shutdownLoop_succ h
    refine ⟨s', ?_, hl⟩
    have hend : s'.openFilesCount ≤ kept.length + 1 := by
      rw [hl.length, append_nil]
      omega
    rw [length_singleton, hstep, shutdownLoop_end hend]
    rfl
  | case3 f g rest ih =>
    intro kept k s h hk
    obtain ⟨k, rfl⟩ : ∃ k', k = k' + 1 := ⟨k - 1, by simp only [length_cons] at hk; omega⟩
    obtain ⟨s', hl, hstep⟩ := shutdownLoop_succ h
    -- the entry `g` is in front of the index now
    rw [append_cons] at hl
    simp only [length_cons] at hk
    obtain ⟨s'', hrest, hl'⟩ := ih (kept ++ [g]) k s' hl (by omega)
    rw [length_append, length_singleton] at hrest
    refine ⟨s'', by rw [hstep, hrest]; rfl, ?_⟩
    rw [append_assoc] at hl'
    exact hl'

end

/-- **When all open files are closed**: when there is none, or just one and the file system is
active. -/
theorem closesAll_iff {s : FileLib} {live : List Handle} (h : Listed s live) (fsActive : Bool) :
    ClosesAll fsActive s live ↔ live = [] ∨ fsActive = true ∧ live.length = 1 := by
  cases fsActive with
  | false =>
    constructor
    · rintro ⟨s', closed, hres, -, hcount⟩
      cases hres
      exact .inl (length_eq_zero_iff.mp (h.length.symm.trans hcount))
    · rintro (rfl | ⟨hfalse, -⟩)
      · exact ⟨s, [], rfl, fun f hf => absurd hf not_mem_nil, h.length⟩
      · exact absurd hfalse Bool.false_ne_true
  | true =>
    obtain ⟨s1, hres1, hl⟩ : ∃ s', fsShutdown true s = some (s', evens live) ∧
        Listed s' (odds live) := shutdownLoop_eq live [] s.openFilesCount s h h.length.ge
    have hleft : s1.openFilesCount = 0 ↔ live.length ≤ 1 := by
      rw [hl.length, length_eq_zero_iff, odds_eq_nil_iff]
    constructor
    · rintro ⟨s', closed, hres, -, hcount⟩
      cases hres1.symm.trans hres
      rcases Nat.eq_zero_or_pos live.length with hzero | hpos
      · exact .inl (length_eq_zero_iff.mp hzero)
      · exact .inr ⟨rfl, by omega⟩
    · intro hcase
      refine ⟨s1, _, hres1, ?_, ?_⟩
      · rcases hcase with rfl | ⟨-, hone⟩
        · exact fun f hf => absurd hf not_mem_nil
        · obtain ⟨f, rfl⟩ := length_eq_one_iff.mp hone
          intro g hg
          rw [mem_singleton.mp hg]
          exact count_singleton_self
      · rw [hleft]
        rcases hcase with rfl | ⟨-, hone⟩
        · exact Nat.zero_le 1
        · omega

/-- One open file, on a disk on which every file exists. -/
def oneOpen : FileLib := reading flInit ['/', 'a']

/-- Two open files. -/
def twoOpen : FileLib := reading oneOpen ['/', 'b']

theorem listed_oneOpen : Listed oneOpen [0] := ⟨by decide, by decide⟩

theorem listed_twoOpen : Listed twoOpen [0, 1] := ⟨by decide, by decide⟩

theorem closesAll_oneOpen : Listed oneOpen [0] ∧ ClosesAll true oneOpen [0] :=
  ⟨listed_oneOpen, (closesAll_iff listed_oneOpen true).mpr (.inr ⟨rfl, rfl⟩)⟩

/-- The second of two files is not closed. -/
theorem not_closesAll_twoOpen : Listed twoOpen [0, 1] ∧ ¬ClosesAll true twoOpen [0, 1] := by
  refine ⟨listed_twoOpen, ?_⟩
  rintro ⟨s', closed, hres, -, hcount⟩
  have hleft : (fsShutdown true twoOpen).map (·.1.openFilesCount) = some 1 := by decide
  rw [hres, Option.map_some, hcount] at hleft
  simp at hleft

end AthenX.Files
