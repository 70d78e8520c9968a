import Mathlib

/-!
# Listing a directory

`fl_listdirectory`, `fl_count_files` and `fl_populate_file_list` of
`drivers/fs/fat32/fat_filelib.c` count from the values their counters come with. `ls` and `kmain`
pass counters that are not initialised, so the entries may be stored anywhere.
-/

namespace AthenX.Listing

/-! ### The source -/

/-- The fields of `struct fs_dir_ent` that are read. -/
structure DirEnt where
  filename : List UInt8
  isDir : Bool

/-- A counter, and the stores to its array: the index and the name. -/
structure Slots where
  count : Int32
  stores : List (Int32 × List UInt8)
deriving DecidableEq

/-- `strncpy` into the entry at the counter, which goes up. -/
def Slots.store (s : Slots) (filename : List UInt8) : Slots :=
  ⟨s.count + 1, s.stores ++ [(s.count, filename.take 255)]⟩

/-- `MAX`. -/
def max : Int32 := 100

/-- The loop of `fl_listdirectory`. -/
def listEntries : List DirEnt → Slots → Slots → Slots × Slots
  | [], dirs, files => (dirs, files)
  | e :: es, dirs, files =>
      if e.isDir then
        listEntries es (if dirs.count < max then dirs.store e.filename else dirs) files
      else listEntries es dirs (if files.count < max then files.store e.filename else files)

variable (dir : Option (List DirEnt))

/-- `fl_listdirectory`; the directory is `none` if `fl_opendir` fails. -/
def flListdirectory (dirCount fileCount : Int32) : Slots × Slots :=
  listEntries (dir.getD []) ⟨dirCount, []⟩ ⟨fileCount, []⟩

/-- `fl_count_files`. -/
def flCountFiles (dirCount fileCount : Int32) : Int32 × Int32 :=
  (dir.getD []).foldl (fun n e => if e.isDir then (n.1 + 1, n.2) else (n.1, n.2 + 1))
    (dirCount, fileCount)

/-- `fl_populate_file_list`. -/
def flPopulateFileList (fileCount : Int32) : Slots :=
  (dir.getD []).foldl (fun s e => if e.isDir then s else s.store e.filename) ⟨fileCount, []⟩

/-! ### The stores -/

/-- The entries that are listed with one counter. -/
def found (b : Bool) : List DirEnt := (dir.getD []).filter (·.isDir == b)

/-- The stores are at `0, 1, 2, …` and the counter is their number. -/
def Exact (n : ℕ) (s : Slots) : Prop :=
  s.count.toInt = n ∧ s.stores.map (·.1.toInt) = (List.range n).map Nat.cast

/-- The stores while there is room. -/
def fill (room : Int32 → Bool) (es : List DirEnt) (s : Slots) : Slots :=
  es.foldl (fun s e => if room s.count then s.store e.filename else s) s

theorem fill_spec (room : Int32 → Bool) (es : List DirEnt) (s : Slots) {k : ℕ} (hk : k ≤ es.length)
    (hroom : ∀ i < k, room (s.count + Int32.ofNat i) = true)
    (hend : k < es.length → room (s.count + Int32.ofNat k) = false) :
    (fill room es s).count = s.count + Int32.ofNat k ∧ (fill room es s).stores.map Prod.fst =
      s.stores.map Prod.fst ++ (List.range k).map fun i => s.count + Int32.ofNat i := by
  induction es generalizing s k with
  | nil =>
    obtain rfl : k = 0 := by simpa using hk
    simp [fill]
  | cons e es ih =>
    cases k with
    | zero =>
      have hfull : room s.count = false := by simpa using hend
      have hskip : fill room (e :: es) s = fill room es s := by simp [fill, hfull]
      rw [hskip]
      exact ih s (Nat.zero_le _) (fun i hi => absurd hi (Nat.not_lt_zero i)) fun _ => by simpa
    | succ k =>
      have hfree : room s.count = true := by simpa using hroom 0 (Nat.succ_pos k)
      have hstore : fill room (e :: es) s = fill room es (s.store e.filename) := by
        simp [fill, hfree]
      have hcast : ∀ i, s.count + 1 + Int32.ofNat i = s.count + Int32.ofNat (i + 1) := by
        intro i
        rw [Int32.ofNat_add, Int32.add_comm (Int32.ofNat i), ← Int32.add_assoc]
        rfl
      obtain ⟨hcount, hstores⟩ := ih (s.store e.filename) (Nat.le_of_succ_le_succ hk)
        (fun i hi => (hcast i).symm ▸ hroom (i + 1) (by omega))
        (fun h => (hcast k).symm ▸ hend (by simpa using h))
      rw [hstore]
      refine ⟨hcount.trans (hcast k), hstores.trans ?_⟩
      rw [List.range_succ_eq_map]
      simp [Slots.store, hcast, Function.comp_def]

theorem exact_iff {n k : ℕ} {c : Int32} {s : Slots} (hcount : s.count = c + Int32.ofNat k)
    (hstores : s.stores.map Prod.fst = (List.range k).map fun i => c + Int32.ofNat i)
    (hzero : c = 0 → k = n) : Exact n s ↔ c = 0 ∧ n < 2 ^ 31 := by
  have hindex : s.stores.map (·.1.toInt) =
      (List.range k).map fun i => (c + Int32.ofNat i).toInt := by
    have h := congrArg (List.map Int32.toInt) hstores
    rwa [List.map_map, List.map_map] at h
  constructor
  · rintro ⟨hn, hrange⟩
    have hlen := congrArg List.length (hindex.symm.trans hrange)
    simp only [List.length_map, List.length_range] at hlen
    subst hlen
    have hlt := s.count.toInt_lt
    have hk : k < 2 ^ 31 := by omega
    rw [hcount, ← Int32.toInt_ofNat_of_lt hk, Int32.toInt_inj] at hn
    exact ⟨(Int32.add_left_inj _).mp (hn.trans (Int32.zero_add _).symm), hk⟩
  · rintro ⟨hc, hlt⟩
    obtain rfl := hzero hc
    rw [hc, Int32.zero_add] at hcount
    refine ⟨hcount ▸ Int32.toInt_ofNat_of_lt hlt, hindex.trans (List.map_congr_left fun i hi => ?_)⟩
    rw [hc, Int32.zero_add]
    exact Int32.toInt_ofNat_of_lt ((List.mem_range.mp hi).trans hlt)

theorem listEntries_eq (es : List DirEnt) (d f : Slots) : listEntries es d f =
    (fill (· < max) (es.filter (·.isDir == true)) d,
      fill (· < max) (es.filter (·.isDir == false)) f) := by
  induction es generalizing d f with
  | nil => rfl
  | cons e es ih => cases he : e.isDir <;> simp [listEntries, fill, he, ih]

theorem flPopulateFileList_eq (n : Int32) :
    flPopulateFileList dir n = fill (fun _ => true) (found dir false) ⟨n, []⟩ := by
  simp only [flPopulateFileList, fill, found, List.foldl_filter]
  congr
  funext s e
  cases e.isDir <;> simp

theorem flCountFiles_eq (d n : Int32) :
    (flCountFiles dir d n).2 = n + Int32.ofNat (found dir false).length := by
  unfold flCountFiles found
  induction dir.getD [] generalizing d n with
  | nil => simp
  | cons e es ih =>
    cases he : e.isDir <;> simp [he, ih, Int32.ofNat_add, Int32.add_assoc, Int32.add_comm 1]

theorem toInt_add_ofNat {c : Int32} {i : ℕ} (h : c.toInt + i < 2 ^ 31) :
    (c + Int32.ofNat i).toInt = c.toInt + i := by
  have hge := c.le_toInt
  rw [Int32.toInt_add, Int32.toInt_ofNat', Int.add_bmod_bmod]
  exact Int.bmod_eq_of_le (by rw [Int32.size]; omega) (by rw [Int32.size]; omega)

theorem exact_fill_max {es : List DirEnt} (c : Int32) :
    Exact (min 100 es.length) (fill (· < max) es ⟨c, []⟩) ↔ c = 0 := by
  have hlt := c.toInt_lt
  have hroom : ∀ i : ℕ, c.toInt + i < 2 ^ 31 → (c + Int32.ofNat i < max ↔ c.toInt + i < 100) := by
    intro i hi
    rw [Int32.lt_iff_toInt_lt, toInt_add_ofNat hi]
    rfl
  obtain ⟨hcount, hstores⟩ := fill_spec (· < max) es ⟨c, []⟩
    (k := min es.length (100 - c.toInt).toNat) (Nat.min_le_left _ _)
    (fun i hi => decide_eq_true ((hroom i (by omega)).mpr (by omega)))
    (fun h => decide_eq_false ((hroom _ (by omega)).not.mpr (by omega)))
  rw [exact_iff (n := min 100 es.length) hcount hstores (by rintro rfl; exact Nat.min_comm _ _)]
  exact and_iff_left (by omega)

/-- **The three listings.** A counter and its stores are exact if and only if the counter comes in
as zero and there is no overflow, and the two counts of the files agree exactly if they start alike.
-/
theorem listing_iff (d n : Int32) :
    (Exact (min 100 (found dir true).length) (flListdirectory dir d n).1 ↔ d = 0) ∧
      (Exact (min 100 (found dir false).length) (flListdirectory dir d n).2 ↔ n = 0) ∧
      (Exact (found dir false).length (flPopulateFileList dir n) ↔
        n = 0 ∧ (found dir false).length < 2 ^ 31) ∧
      ∀ m, (flCountFiles dir d m).2 = (flPopulateFileList dir n).count ↔ m = n := by
  obtain ⟨hcount, hstores⟩ := fill_spec (fun _ => true) (found dir false) ⟨n, []⟩ le_rfl
    (fun _ _ => rfl) (fun h => absurd h (Nat.lt_irrefl _))
  rw [flListdirectory, listEntries_eq, flPopulateFileList_eq]
  refine ⟨exact_fill_max d, exact_fill_max n, exact_iff hcount hstores fun _ => rfl, fun m => ?_⟩
  rw [flCountFiles_eq, hcount]
  exact Int32.add_left_inj _

/-- A counter that comes in as `-1` puts the first name in front of the array. -/
theorem flPopulateFileList_neg :
    flPopulateFileList (some [⟨[65], false⟩]) (-1) = ⟨0, [(-1, [65])]⟩ := by
  decide

end AthenX.Listing
