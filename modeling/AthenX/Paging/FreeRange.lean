import AthenX.KHeap.Basic
import AthenX.Lib.Stride
import AthenX.Paging.Range

/-!
# Looking for a free range

`find_free_range` of `kernel/vmm/vmm.c` tries the start, and if some page of the range is mapped it
goes on, in steps of a page or of the size, to the first address behind it. It takes the first range
that starts before the end, whether or not it ends before it. With `size_aligned` the steps are
multiples of the size, but the start is not. A range that wraps at the top is passed over, and the
next steps go round and may never come behind it.

Addresses are counted in pages, on a ring of `2 ^ 20` of them.
-/

namespace AthenX.Paging

open KHeap Stride Option UInt32

/-! ### The source -/

/-- The inner loop of `find_free_range`: the first page that is mapped, or `stop`. -/
def scanFree (m : Machine) (stop : UInt32) : ℕ → UInt32 → Option UInt32
  | 0, _ => none
  | n + 1, va =>
      if va < stop then do
        let r ← getMapping m va
        match r with
        | some _ => some va
        | none => scanFree m stop n (va + pageSize)
      else some va

/-- The loop that steps over `va`. -/
def skipPast (va step : UInt32) : ℕ → UInt32 → Option UInt32
  | 0, _ => none
  | n + 1, vaStart => if vaStart ≤ va then skipPast va step n (vaStart + step) else some vaStart

/-- The outer loop, with `fuel` for the other two. -/
def searchFrom (fuel : ℕ) (m : Machine) (vaEnd size step : UInt32) : ℕ → UInt32 → Option UInt32
  | 0, _ => none
  | n + 1, vaStart =>
      if vaStart < vaEnd then do
        let va ← scanFree m (vaStart + size) fuel vaStart
        if va = vaStart + size then some vaStart
        else do
          let vaStart ← skipPast va step fuel vaStart
          searchFrom fuel m vaEnd size step n vaStart
      else some vaEnd

/-- `find_free_range`. -/
def findFreeRange (fuel : ℕ) (m : Machine) (vaStart vaEnd size : UInt32) (sizeAligned : Bool) :
    Option UInt32 :=
  let vaStart := pageRoundDown vaStart
  let vaEnd := pageRoundUp vaEnd
  let size := pageRoundUp size
  let step := if sizeAligned then size else pageSize
  searchFrom fuel m vaEnd size step fuel vaStart

/-! ### The property -/

/-- The address of a page. -/
def pageAt (n : ℕ) : UInt32 := UInt32.ofNat (4096 * n)

/-- The page is not mapped. -/
def Unmapped (m : Machine) (n : ℕ) : Prop := getMapping m (pageAt n) = some none

instance (m : Machine) (n : ℕ) : Decidable (Unmapped m n) :=
  inferInstanceAs (Decidable (getMapping m (pageAt n) = some none))

/-- A range of `size` bytes in `[lo, hi)` with no page mapped starts at `r`, aligned if it should
be. -/
structure Suitable (m : Machine) (lo hi size : ℕ) (aligned : Bool) (r : ℕ) : Prop where
  low : lo ≤ r
  high : r + size ≤ hi
  free : ∀ n, r < 4096 * (n + 1) → 4096 * n < r + size → Unmapped m n
  aligned : aligned = true → size ∣ r

/-- The page that an address is in. -/
def pagesDown (x : UInt32) : ℕ := x.toNat / 4096

/-- The number of pages for a number of bytes. -/
def pagesUp (x : UInt32) : ℕ := (x.toNat + 4095) / 4096

/-- The range is one for the arguments of a call, which are rounded as numbers. -/
abbrev SuitableFor (m : Machine) (vaStart vaEnd size : UInt32) (aligned : Bool) (r : ℕ) : Prop :=
  Suitable m (4096 * pagesDown vaStart) (4096 * pagesUp vaEnd) (4096 * pagesUp size) aligned r

/-- **The call returns** the address of a suitable range, or the end if there is none. -/
def Finds (m : Machine) (vaStart vaEnd size : UInt32) (aligned : Bool) : Prop :=
  ∃ r, Returns (findFreeRange · m vaStart vaEnd size aligned) r ∧
    (SuitableFor m vaStart vaEnd size aligned r.toNat ∨
      r = pageRoundUp vaEnd ∧ ∀ q, ¬SuitableFor m vaStart vaEnd size aligned q)

/-! ### Addresses of pages -/

/-- The number of pages of the address space. -/
def pageCount : ℕ := 1048576

theorem toNat_pageAt (n : ℕ) : (pageAt n).toNat = 4096 * (n % pageCount) := by
  rw [pageAt, toNat_ofNat', pageCount]
  omega

theorem pageAt_add (n j : ℕ) : pageAt n + pageAt j = pageAt (n + j) := by
  rw [pageAt, pageAt, pageAt, Nat.mul_add, UInt32.ofNat_add]

theorem pageAt_one : pageAt 1 = pageSize := rfl

theorem pageAt_lt {n j : ℕ} : pageAt n < pageAt j ↔ n % pageCount < j % pageCount := by
  rw [lt_iff_toNat_lt, toNat_pageAt, toNat_pageAt]
  omega

theorem pageAt_le {n j : ℕ} : pageAt n ≤ pageAt j ↔ n % pageCount ≤ j % pageCount := by
  rw [le_iff_toNat_le, toNat_pageAt, toNat_pageAt]
  omega

theorem pageAt_inj {n j : ℕ} : pageAt n = pageAt j ↔ n % pageCount = j % pageCount := by
  rw [← UInt32.toNat_inj, toNat_pageAt, toNat_pageAt]
  omega

theorem pageRoundDown_eq (x : UInt32) : pageRoundDown x = pageAt (pagesDown x) := by
  have hlt := x.toNat_lt
  rw [← UInt32.toNat_inj, toNat_pageAt, pageRoundDown, pageAddrMask, Word32.toNat_aligned,
    pageCount, pagesDown]
  omega

theorem pageRoundUp_eq (x : UInt32) : pageRoundUp x = pageAt (pagesUp x) := by
  rw [← UInt32.toNat_inj, toNat_pageAt, pageRoundUp, pageAddrMask, Word32.toNat_aligned, pageCount,
    pagesUp, UInt32.toNat_sub, UInt32.toNat_add, toNat_pageSize, UInt32.toNat_one]
  omega

/-! ### The two inner loops -/

section

variable {m : Machine} {c d k t v x n : ℕ} {r : UInt32}

theorem scan_inv (hd : d < pageCount) : ∀ {n c : ℕ}, c ≤ d →
    scanFree m (pageAt d) n (pageAt c) = some r →
    ∃ v, r = pageAt v ∧ c ≤ v ∧ v ≤ d ∧ (∀ i, c ≤ i → i < v → Unmapped m i) ∧
      (v < d → ¬Unmapped m v) := by
  intro n
  induction n with
  | zero => intro c _ h; cases h
  | succ n ih =>
    intro c hc h
    have hlt : pageAt c < pageAt d ↔ c < d := by
      rw [pageAt_lt, Nat.mod_eq_of_lt (by omega), Nat.mod_eq_of_lt hd]
    rw [scanFree] at h
    split at h
    · next hcd =>
      rw [hlt] at hcd
      obtain ⟨o, ho, h⟩ := bind_eq_some_iff.mp h
      cases o with
      | some pa =>
        cases h
        refine ⟨c, rfl, Nat.le_refl c, hc, fun i h1 h2 => absurd h2 (by omega), fun _ hun => ?_⟩
        rw [Unmapped, ho] at hun
        cases hun
      | none =>
        rw [← pageAt_one, pageAt_add] at h
        obtain ⟨v, rfl, hcv, hvd, hfree, hstop⟩ := ih hcd h
        refine ⟨v, rfl, by omega, hvd, fun i h1 h2 => ?_, hstop⟩
        rcases Nat.eq_or_lt_of_le h1 with rfl | h1
        · exact ho
        · exact hfree i h1 h2
    · next hcd =>
      rw [hlt] at hcd
      cases h
      exact ⟨c, rfl, Nat.le_refl c, hc, fun i h1 h2 => absurd h2 (by omega),
        fun hlt => absurd hlt hcd⟩

theorem scan_returns (hmap : ∀ va, getMapping m va ≠ none) (hd : d < pageCount) :
    ∀ {j c : ℕ}, c + j = d →
      ∃ r, ∀ n, j < n → scanFree m (pageAt d) n (pageAt c) = some r := by
  intro j
  induction j with
  | zero =>
    intro c hc
    refine ⟨pageAt c, fun n hn => ?_⟩
    obtain ⟨n, rfl⟩ : ∃ l, n = l + 1 := ⟨n - 1, by omega⟩
    rw [scanFree, if_neg]
    rw [show c = d from hc]
    exact Nat.lt_irrefl _
  | succ j ih =>
    intro c hc
    have hcd : pageAt c < pageAt d := by
      rw [pageAt_lt, Nat.mod_eq_of_lt (by omega), Nat.mod_eq_of_lt hd]
      omega
    obtain ⟨o, ho⟩ := ne_none_iff_exists'.mp (hmap (pageAt c))
    cases o with
    | some pa =>
      refine ⟨pageAt c, fun n hn => ?_⟩
      obtain ⟨n, rfl⟩ : ∃ l, n = l + 1 := ⟨n - 1, by omega⟩
      simp [scanFree, ho]
    | none =>
      obtain ⟨r, hr⟩ := ih (c := c + 1) (by omega)
      refine ⟨r, fun n hn => ?_⟩
      obtain ⟨n, rfl⟩ : ∃ l, n = l + 1 := ⟨n - 1, by omega⟩
      rw [← hr n (by omega), ← pageAt_add, pageAt_one]
      simp [scanFree, hcd, ho]

theorem scan_round (hc : c < pageCount) (hk : k < pageCount) (hround : pageCount ≤ c + k) (n : ℕ) :
    scanFree m (pageAt (c + k)) (n + 1) (pageAt c) = some (pageAt c) := by
  rw [scanFree, if_neg]
  rw [pageAt_lt, Nat.mod_eq_of_lt hc, Nat.mod_eq_sub_mod hround, Nat.mod_eq_of_lt (by omega)]
  omega

theorem skip_inv (hv : v < pageCount) : ∀ {n x : ℕ},
    skipPast (pageAt v) (pageAt t) n (pageAt x) = some r →
    ∃ i, r = pageAt (pos pageCount t x i) ∧ v < pos pageCount t x i ∧
      ∀ j < i, pos pageCount t x j ≤ v := by
  intro n
  induction n with
  | zero => intro x h; cases h
  | succ n ih =>
    intro x h
    rw [skipPast] at h
    split at h
    · next hx =>
      rw [pageAt_le, Nat.mod_eq_of_lt hv] at hx
      rw [pageAt_add] at h
      obtain ⟨i, hr, hlt, hle⟩ := ih h
      refine ⟨i + 1, by rw [pos_succ]; exact hr, by rw [pos_succ]; exact hlt, ?_⟩
      intro j hj
      cases j with
      | zero => rw [pos_zero]; exact hx
      | succ j => rw [pos_succ]; exact hle j (by omega)
    · next hx =>
      rw [pageAt_le, Nat.mod_eq_of_lt hv] at hx
      cases h
      refine ⟨0, ?_, ?_, by simp⟩
      · rw [pos_zero, pageAt_inj, Nat.mod_mod]
      · rw [pos_zero]
        omega

theorem skip_returns (hv : v < pageCount) : ∀ {i x : ℕ}, v < pos pageCount t x i →
    ∃ r, ∀ n, i < n → skipPast (pageAt v) (pageAt t) n (pageAt x) = some r := by
  intro i
  induction i with
  | zero =>
    intro x h
    rw [pos_zero] at h
    refine ⟨pageAt x, fun n hn => ?_⟩
    obtain ⟨n, rfl⟩ : ∃ j, n = j + 1 := ⟨n - 1, by omega⟩
    rw [skipPast, if_neg]
    rw [pageAt_le, Nat.mod_eq_of_lt hv]
    omega
  | succ i ih =>
    intro x h
    rw [pos_succ] at h
    obtain ⟨r, hr⟩ := ih h
    by_cases hx : pageAt x ≤ pageAt v
    · refine ⟨r, fun n hn => ?_⟩
      obtain ⟨n, rfl⟩ : ∃ j, n = j + 1 := ⟨n - 1, by omega⟩
      rw [skipPast, if_pos hx, pageAt_add]
      exact hr n (by omega)
    · refine ⟨pageAt x, fun n hn => ?_⟩
      obtain ⟨n, rfl⟩ : ∃ j, n = j + 1 := ⟨n - 1, by omega⟩
      rw [skipPast, if_neg hx]

end

/-! ### The search -/

/-- Page `c` is met from page `a` in steps of `t`, before `e`, and `k` pages from it on are free. -/
structure Candidate (m : Machine) (a e k t c : ℕ) : Prop where
  met : ∃ i, c = a + i * t
  before : c < e
  fits : c + k < pageCount
  free : ∀ n, c ≤ n → n < c + k → Unmapped m n

/-- The numbers of pages of a search. -/
structure Request (e k t : ℕ) : Prop where
  stop : e < pageCount
  count : k < pageCount
  step : t ∣ k

/-- The search is at page `c`, and has passed over no candidate. -/
structure At (m : Machine) (a e k t c : ℕ) : Prop where
  lt : c < pageCount
  mod : c % Nat.gcd t pageCount = a % Nat.gcd t pageCount
  least : ∀ d, Candidate m a e k t d → c ≤ d
  met : c + k < pageCount → ∃ i, c = a + i * t

section

variable {m : Machine} {a e k t c v i fuel n : ℕ} {r : UInt32}

/-- The page `v` at which the range from page `c` on fails. -/
structure FailsAt (m : Machine) (k c v : ℕ) : Prop where
  le : c ≤ v
  lt : v < pageCount
  why : (c + k < pageCount ∧ v < c + k ∧ ¬Unmapped m v) ∨ (pageCount ≤ c + k ∧ v = c)

theorem scan_cases (hc : c < pageCount) (hk : k < pageCount)
    (h : scanFree m (pageAt (c + k)) n (pageAt c) = some r) :
    (r = pageAt (c + k) ∧ c + k < pageCount ∧ ∀ i, c ≤ i → i < c + k → Unmapped m i) ∨
      ∃ v, r = pageAt v ∧ pageAt v ≠ pageAt (c + k) ∧ FailsAt m k c v := by
  rcases Nat.lt_or_ge (c + k) pageCount with hfit | hround
  · obtain ⟨v, rfl, hcv, hvd, hfree, hstop⟩ := scan_inv hfit (Nat.le_add_right c k) h
    rcases Nat.eq_or_lt_of_le hvd with rfl | hvd
    · exact .inl ⟨rfl, hfit, hfree⟩
    · refine .inr ⟨v, rfl, ?_, hcv, by omega, .inl ⟨hfit, hvd, hstop hvd⟩⟩
      rw [Ne, pageAt_inj, Nat.mod_eq_of_lt (by omega), Nat.mod_eq_of_lt hfit]
      omega
  · obtain ⟨n, rfl⟩ : ∃ j, n = j + 1 := ⟨n - 1, by
      have : n ≠ 0 := by rintro rfl; cases h
      omega⟩
    rw [scan_round hc hk hround] at h
    cases h
    refine .inr ⟨c, rfl, ?_, Nat.le_refl c, hc, .inr ⟨hround, rfl⟩⟩
    rw [Ne, pageAt_inj, Nat.mod_eq_of_lt hc, Nat.mod_eq_sub_mod hround, Nat.mod_eq_of_lt (by omega)]
    omega

theorem Request.pos_end (hq : Request e k t) (hfit : c + k < pageCount) :
    pos pageCount t c (k / t) = c + k := by
  have hmul : k / t * t = k := Nat.div_mul_cancel hq.step
  rw [pos_eq_of_lt (by omega), hmul]

theorem steps_le (hq : Request e k t) (hfit : c + k < pageCount) (hv : v < c + k)
    (hfirst : ∀ j < i, pos pageCount t c j ≤ v) : c + i * t ≤ c + k := by
  have hi : i ≤ k / t := by
    by_contra hlt
    have hle := hfirst (k / t) (by omega)
    rw [hq.pos_end hfit] at hle
    omega
  have hmul := Nat.mul_le_mul_right t hi
  rw [Nat.div_mul_cancel hq.step] at hmul
  omega

/-- **One iteration** goes up, and passes over no candidate. -/
theorem At.next (h : At m a e k t c) (hq : Request e k t) (hv : FailsAt m k c v)
    (hi : v < pos pageCount t c i) (hfirst : ∀ j < i, pos pageCount t c j ≤ v) :
    c < pos pageCount t c i ∧ At m a e k t (pos pageCount t c i) := by
  have hup : c < pos pageCount t c i := hv.le.trans_lt hi
  have hstep : c + k < pageCount → pos pageCount t c i = c + i * t := by
    intro hfit
    rcases hv.why with ⟨-, hvk, -⟩ | ⟨hround, -⟩
    · exact pos_eq_of_lt ((steps_le hq hfit hvk hfirst).trans_lt hfit)
    · omega
  refine ⟨hup, pos_lt (by decide) i, (pos_mod_gcd i).trans h.mod, ?_, ?_⟩
  · intro d hd
    have hcd := h.least d hd
    have hfits := hd.fits
    have hfit : c + k < pageCount := by omega
    rcases hv.why with ⟨-, hvk, hmapped⟩ | ⟨hround, -⟩
    · -- the page at which the range fails is not one of the candidate
      have hvd : v < d := by
        by_contra hle
        exact hmapped (hd.free v (by omega) (by omega))
      obtain ⟨j, hj⟩ := hd.met
      obtain ⟨l, hl⟩ := h.met hfit
      have hd' : d = c + (j - l) * t := by
        rw [Nat.sub_mul]
        omega
      have hij : i ≤ j - l := by
        by_contra hlt
        have hle := hfirst (j - l) (by omega)
        rw [pos_eq_of_lt (by omega)] at hle
        omega
      have := Nat.mul_le_mul_right t hij
      omega
    · omega
  · intro hfit
    have hfit' : c + k < pageCount := by omega
    obtain ⟨l, hl⟩ := h.met hfit'
    refine ⟨l + i, ?_⟩
    rw [Nat.add_mul]
    omega

/-- What the search returns: the first candidate, or the end if the steps come so far. -/
def Result (m : Machine) (a e k t : ℕ) (r : UInt32) : Prop :=
  (∃ c, IsLeast {c | Candidate m a e k t c} c ∧ r = pageAt c) ∨
    ((∀ c, ¬Candidate m a e k t c) ∧ e ≤ top pageCount t a ∧ r = pageAt e)

theorem Result.unique {r' : UInt32} (h : Result m a e k t r) (h' : Result m a e k t r') :
    r = r' := by
  rcases h with ⟨c, hc, rfl⟩ | ⟨hno, -, rfl⟩
  · rcases h' with ⟨d, hd, rfl⟩ | ⟨hno, -, rfl⟩
    · rw [hc.unique hd]
    · exact absurd hc.1 (hno c)
  · rcases h' with ⟨d, hd, rfl⟩ | ⟨-, -, rfl⟩
    · exact absurd hd.1 (hno d)
    · rfl

theorem search_result (hq : Request e k t) : ∀ {n c : ℕ}, At m a e k t c →
    searchFrom fuel m (pageAt e) (pageAt k) (pageAt t) n (pageAt c) = some r →
    Result m a e k t r := by
  intro n
  induction n with
  | zero => intro c _ h; cases h
  | succ n ih =>
    intro c hc h
    have hlt : pageAt c < pageAt e ↔ c < e := by
      rw [pageAt_lt, Nat.mod_eq_of_lt hc.lt, Nat.mod_eq_of_lt hq.stop]
    rw [searchFrom] at h
    split at h
    · next hce =>
      rw [hlt] at hce
      rw [pageAt_add] at h
      obtain ⟨va, hscan, h⟩ := bind_eq_some_iff.mp h
      rcases scan_cases hc.lt hq.count hscan with ⟨rfl, hfit, hfree⟩ | ⟨v, rfl, hne, hv⟩
      · rw [if_pos rfl] at h
        cases h
        exact .inl ⟨c, ⟨⟨hc.met hfit, hce, hfit, hfree⟩, fun d hd => hc.least d hd⟩, rfl⟩
      · rw [if_neg hne] at h
        obtain ⟨va', hskip, h⟩ := bind_eq_some_iff.mp h
        obtain ⟨i, rfl, hi, hfirst⟩ := skip_inv hv.lt hskip
        exact ih (hc.next hq hv hi hfirst).2 h
    · next hce =>
      rw [hlt] at hce
      cases h
      refine .inr ⟨fun d hd => ?_, ?_, rfl⟩
      · have := hc.least d hd
        have := hd.before
        omega
      · exact (Nat.le_of_not_lt hce).trans (le_top hc.lt hc.mod)

theorem At.exists_step (h : At m a e k t c) (hq : Request e k t) (hce : c < e)
    (hgoal : (∃ d, Candidate m a e k t d) ∨ e ≤ top pageCount t a) (hv : FailsAt m k c v) :
    ∃ i, v < pos pageCount t c i := by
  rcases hv.why with ⟨hfit, hvk, -⟩ | ⟨hround, rfl⟩
  · refine ⟨k / t, ?_⟩
    rw [hq.pos_end hfit]
    exact hvk
  · have htop : top pageCount t v = top pageCount t a := by rw [top, top, h.mod]
    rw [exists_lt_pos_iff (by decide)]
    rcases hgoal with ⟨d, hd⟩ | hgoal
    · have := h.least d hd
      have := hd.fits
      omega
    · omega

/-- **The search returns** if there is a candidate, or the steps come to the end. -/
theorem search_returns (hmap : ∀ va, getMapping m va ≠ none) (hq : Request e k t)
    (hgoal : (∃ d, Candidate m a e k t d) ∨ e ≤ top pageCount t a) :
    ∀ {j c : ℕ}, e ≤ c + j → At m a e k t c → ∃ b r, ∀ fuel, b ≤ fuel → ∀ n, b ≤ n →
      searchFrom fuel m (pageAt e) (pageAt k) (pageAt t) n (pageAt c) = some r := by
  intro j
  induction j with
  | zero =>
    intro c hj hc
    refine ⟨1, pageAt e, fun fuel _ n hn => ?_⟩
    obtain ⟨n, rfl⟩ : ∃ l, n = l + 1 := ⟨n - 1, by omega⟩
    rw [searchFrom, if_neg]
    rw [pageAt_lt, Nat.mod_eq_of_lt hc.lt, Nat.mod_eq_of_lt hq.stop]
    omega
  | succ j ih =>
    intro c hj hc
    rcases Nat.lt_or_ge c e with hce | hce
    swap
    · exact ih (by omega) hc
    have hlt : pageAt c < pageAt e := by
      rw [pageAt_lt, Nat.mod_eq_of_lt hc.lt, Nat.mod_eq_of_lt hq.stop]
      exact hce
    have hscan : ∃ va, ∀ n, k < n → scanFree m (pageAt (c + k)) n (pageAt c) = some va := by
      rcases Nat.lt_or_ge (c + k) pageCount with hfit | hround
      · exact scan_returns hmap hfit rfl
      · refine ⟨pageAt c, fun n hn => ?_⟩
        obtain ⟨n, rfl⟩ : ∃ l, n = l + 1 := ⟨n - 1, by omega⟩
        exact scan_round hc.lt hq.count hround n
    obtain ⟨va, hva⟩ := hscan
    rcases scan_cases hc.lt hq.count (hva (k + 1) (by omega)) with
      ⟨rfl, -, -⟩ | ⟨v, rfl, hne, hv⟩
    · refine ⟨k + 1, pageAt c, fun fuel hf n hn => ?_⟩
      obtain ⟨n, rfl⟩ : ∃ l, n = l + 1 := ⟨n - 1, by omega⟩
      simp [searchFrom, hlt, pageAt_add, hva fuel (by omega)]
    · obtain ⟨i, hi⟩ := hc.exists_step hq hce hgoal hv
      obtain ⟨va', hva'⟩ := skip_returns hv.lt hi
      obtain ⟨i', rfl, hi', hfirst⟩ := skip_inv hv.lt (hva' (i + 1) (by omega))
      obtain ⟨hup, hnext⟩ := hc.next hq hv hi' hfirst
      obtain ⟨b, r, hr⟩ := ih (by omega) hnext
      refine ⟨b + k + i + 1, r, fun fuel hf n hn => ?_⟩
      obtain ⟨n, rfl⟩ : ∃ l, n = l + 1 := ⟨n - 1, by omega⟩
      simp [searchFrom, hlt, pageAt_add, hva fuel (by omega), hne, hva' fuel (by omega),
        hr fuel (by omega) n (by omega)]

end

/-! ### When the result is right -/

/-- The number of pages of a step. -/
def stepPages (size : UInt32) (aligned : Bool) : ℕ := if aligned then pagesUp size else 1

section

variable {m : Machine} {vaStart vaEnd size r r' : UInt32} {aligned : Bool} {fuel : ℕ}

theorem findFreeRange_eq : findFreeRange fuel m vaStart vaEnd size aligned =
    searchFrom fuel m (pageAt (pagesUp vaEnd)) (pageAt (pagesUp size))
      (pageAt (stepPages size aligned)) fuel (pageAt (pagesDown vaStart)) := by
  unfold findFreeRange stepPages
  rw [pageRoundDown_eq, pageRoundUp_eq, pageRoundUp_eq]
  cases aligned <;> rfl

theorem pagesUp_lt {x : UInt32} (h : x ≤ 0xFFFFF000) : pagesUp x < pageCount := by
  rw [le_iff_toNat_le, show (0xFFFFF000 : UInt32).toNat = 4294963200 by decide] at h
  rw [pagesUp, pageCount]
  omega

theorem pagesUp_eq {x : UInt32} (h : ¬x ≤ 0xFFFFF000) : pagesUp x = pageCount := by
  have hlt := x.toNat_lt
  rw [le_iff_toNat_le, show (0xFFFFF000 : UInt32).toNat = 4294963200 by decide] at h
  rw [pagesUp, pageCount]
  omega

theorem pagesDown_lt_pagesUp (h : vaStart < vaEnd) : pagesDown vaStart < pagesUp vaEnd := by
  rw [lt_iff_toNat_lt] at h
  rw [pagesDown, pagesUp]
  omega

theorem pagesDown_lt (x : UInt32) : pagesDown x < pageCount := by
  have hlt := x.toNat_lt
  rw [pagesDown, pageCount]
  omega

theorem request_of_le (hend : vaEnd ≤ 0xFFFFF000) (hsize : size ≤ 0xFFFFF000) :
    Request (pagesUp vaEnd) (pagesUp size) (stepPages size aligned) where
  stop := pagesUp_lt hend
  count := pagesUp_lt hsize
  step := by
    unfold stepPages
    split
    · exact Nat.dvd_refl _
    · exact Nat.one_dvd _

theorem at_start (a e k t : ℕ) (ha : a < pageCount) : At m a e k t a := by
  refine ⟨ha, rfl, ?_, fun _ => ⟨0, by simp⟩⟩
  rintro d ⟨⟨i, rfl⟩, -, -, -⟩
  exact Nat.le_add_right _ _

theorem findFreeRange_result (hend : vaEnd ≤ 0xFFFFF000) (hsize : size ≤ 0xFFFFF000)
    (h : Returns (findFreeRange · m vaStart vaEnd size aligned) r) :
    Result m (pagesDown vaStart) (pagesUp vaEnd) (pagesUp size) (stepPages size aligned) r := by
  obtain ⟨fuel, h⟩ := h
  simp only [findFreeRange_eq] at h
  exact search_result (request_of_le hend hsize) (at_start _ _ _ _ (pagesDown_lt vaStart)) h

theorem findFreeRange_returns (hmap : ∀ va, getMapping m va ≠ none) (hend : vaEnd ≤ 0xFFFFF000)
    (hsize : size ≤ 0xFFFFF000)
    (hgoal : (∃ c, Candidate m (pagesDown vaStart) (pagesUp vaEnd) (pagesUp size)
        (stepPages size aligned) c) ∨
      pagesUp vaEnd ≤ top pageCount (stepPages size aligned) (pagesDown vaStart)) :
    ∃ r, Returns (findFreeRange · m vaStart vaEnd size aligned) r := by
  obtain ⟨b, r, hr⟩ := search_returns hmap (request_of_le hend hsize) hgoal
    (Nat.le_add_left _ _) (at_start _ _ _ _ (pagesDown_lt vaStart))
  refine ⟨r, b, ?_⟩
  simp only [findFreeRange_eq]
  exact hr b (Nat.le_refl b) b (Nat.le_refl b)

theorem findFreeRange_of_end (hend : ¬vaEnd ≤ 0xFFFFF000) :
    Returns (findFreeRange · m vaStart vaEnd size aligned) r ↔ r = 0 := by
  have hzero : pageAt (pagesUp vaEnd) = 0 := by
    rw [pagesUp_eq hend]
    rfl
  have hcall : ∀ n, findFreeRange (n + 1) m vaStart vaEnd size aligned = some 0 := by
    intro n
    rw [findFreeRange_eq, hzero]
    exact if_neg UInt32.not_lt_zero
  constructor
  · rintro ⟨fuel, h⟩
    cases fuel with
    | zero => cases h
    | succ n => exact (some.inj ((hcall n).symm.trans h)).symm
  · rintro rfl
    exact ⟨1, hcall 0⟩

theorem findFreeRange_of_size (h : vaStart < vaEnd) (hend : vaEnd ≤ 0xFFFFF000)
    (hsize : ¬size ≤ 0xFFFFF000)
    (hr : Returns (findFreeRange · m vaStart vaEnd size aligned) r) :
    r = pageAt (pagesDown vaStart) := by
  have hzero : pageAt (pagesUp size) = 0 := by
    rw [pagesUp_eq hsize]
    rfl
  have hlt : pageAt (pagesDown vaStart) < pageAt (pagesUp vaEnd) := by
    rw [pageAt_lt, Nat.mod_eq_of_lt (pagesDown_lt vaStart), Nat.mod_eq_of_lt (pagesUp_lt hend)]
    exact pagesDown_lt_pagesUp h
  obtain ⟨fuel, hr⟩ := hr
  simp only [findFreeRange_eq, hzero] at hr
  cases fuel with
  | zero => cases hr
  | succ n =>
    simp only [searchFrom, scanFree, hlt, if_true, UInt32.add_zero, UInt32.lt_irrefl, if_false,
      bind_eq_bind, bind_some, Option.some.injEq] at hr
    exact hr.symm

/-- **When `find_free_range` is right.** An end in the last page is rounded to 0, which is returned.
Otherwise the size must not be rounded to 0, and the first range that starts before the end is
suitable, or there is none and the steps come to the end. -/
theorem finds_iff (hmap : ∀ va, getMapping m va ≠ none) (h : vaStart < vaEnd) (hpos : 0 < size) :
    Finds m vaStart vaEnd size aligned ↔
      if vaEnd ≤ 0xFFFFF000 then
        size ≤ 0xFFFFF000 ∧
          ((∃ c, IsLeast {c | Candidate m (pagesDown vaStart) (pagesUp vaEnd) (pagesUp size)
                (stepPages size aligned) c} c ∧
              SuitableFor m vaStart vaEnd size aligned (4096 * c)) ∨
            (∀ c, ¬Candidate m (pagesDown vaStart) (pagesUp vaEnd) (pagesUp size)
                (stepPages size aligned) c) ∧
              pagesUp vaEnd ≤ top pageCount (stepPages size aligned) (pagesDown vaStart) ∧
              ∀ q, ¬SuitableFor m vaStart vaEnd size aligned q)
      else
        SuitableFor m vaStart vaEnd size aligned 0 ∨
          ∀ q, ¬SuitableFor m vaStart vaEnd size aligned q := by
  by_cases hend : vaEnd ≤ 0xFFFFF000
  swap
  · rw [if_neg hend]
    have hzero : (0 : UInt32) = pageRoundUp vaEnd := by
      rw [pageRoundUp_eq, pagesUp_eq hend]
      rfl
    constructor
    · rintro ⟨r, hr, hcases⟩
      rw [findFreeRange_of_end hend] at hr
      rw [hr] at hcases
      exact hcases.imp_right And.right
    · intro hcases
      exact ⟨0, (findFreeRange_of_end hend).mpr rfl, hcases.imp_right fun hno => ⟨hzero, hno⟩⟩
  rw [if_pos hend]
  have htoNat : ∀ {c}, c < pageCount → (pageAt c).toNat = 4096 * c := by
    intro c hc
    rw [toNat_pageAt, Nat.mod_eq_of_lt hc]
  have hne : ∀ {c}, c < pagesUp vaEnd → pageAt c ≠ pageRoundUp vaEnd := by
    intro c hc heq
    have hlt := pagesUp_lt hend
    rw [pageRoundUp_eq, pageAt_inj, Nat.mod_eq_of_lt (by omega), Nat.mod_eq_of_lt hlt] at heq
    omega
  -- the end is not the start of a suitable range
  have hnot : ¬SuitableFor m vaStart vaEnd size aligned (pageAt (pagesUp vaEnd)).toNat := by
    intro hs
    have hhigh := hs.high
    rw [lt_iff_toNat_lt] at hpos
    rw [htoNat (pagesUp_lt hend)] at hhigh
    unfold pagesUp at hhigh
    omega
  constructor
  · rintro ⟨r, hr, hcases⟩
    by_cases hsize : size ≤ 0xFFFFF000
    · refine ⟨hsize, ?_⟩
      rcases findFreeRange_result hend hsize hr with ⟨c, hleast, rfl⟩ | ⟨hno, htop, rfl⟩
      · have hfits := hleast.1.fits
        rw [htoNat (by omega)] at hcases
        exact .inl ⟨c, hleast, hcases.resolve_right fun hc => hne hleast.1.before hc.1⟩
      · exact .inr ⟨hno, htop, (hcases.resolve_left hnot).2⟩
    · have hr' := findFreeRange_of_size h hend hsize hr
      rcases hcases with hs | ⟨heq, -⟩
      · have hhigh := hs.high
        have hlt := pagesUp_lt hend
        rw [pagesUp_eq hsize] at hhigh
        omega
      · exact absurd (hr'.symm.trans heq) (hne (pagesDown_lt_pagesUp h))
  · rintro ⟨hsize, hcases⟩
    have hgoal : (∃ c, Candidate m (pagesDown vaStart) (pagesUp vaEnd) (pagesUp size)
        (stepPages size aligned) c) ∨
        pagesUp vaEnd ≤ top pageCount (stepPages size aligned) (pagesDown vaStart) :=
      hcases.imp (fun ⟨c, hleast, _⟩ => ⟨c, hleast.1⟩) fun hc => hc.2.1
    obtain ⟨r, hr⟩ := findFreeRange_returns hmap hend hsize hgoal
    refine ⟨r, hr, ?_⟩
    rcases findFreeRange_result hend hsize hr with ⟨c, hleast, rfl⟩ | ⟨hno, -, rfl⟩
    · rcases hcases with ⟨d, hd, hs⟩ | ⟨hno, -⟩
      · have hfits := hleast.1.fits
        rw [htoNat (by omega), hleast.unique hd]
        exact .inl hs
      · exact absurd hleast.1 (hno c)
    · rcases hcases with ⟨d, hd, -⟩ | ⟨-, -, hnone⟩
      · exact absurd hd.1 (hno d)
      · exact .inr ⟨(pageRoundUp_eq vaEnd).symm, hnone⟩

end

theorem getMapping_heapMachine_ne_none (va : UInt32) : getMapping heapMachine va ≠ none := by
  rw [getMapping_eq supply_heapMachine.selfMapped]
  simp

/-- One page is looked for, and the first one is free. -/
theorem finds_heapMachine : (∀ va, getMapping heapMachine va ≠ none) ∧
    Finds heapMachine 0x400000 0x402000 0x1000 false := by
  refine ⟨getMapping_heapMachine_ne_none, ?_⟩
  have hdown : pagesDown 0x400000 = 1024 := by decide
  have hup : pagesUp 0x402000 = 1026 := by decide
  have hsize : pagesUp 0x1000 = 1 := by decide
  have hun : Unmapped heapMachine 1024 := by decide
  rw [finds_iff getMapping_heapMachine_ne_none (by decide) (by decide)]
  refine ⟨by decide, .inl ⟨1024, ⟨⟨⟨0, by decide⟩, by decide, by decide, ?_⟩, ?_⟩, ?_⟩⟩
  · intro n h1 h2
    obtain rfl : n = 1024 := by omega
    exact hun
  · rintro d ⟨⟨i, rfl⟩, -, -, -⟩
    omega
  · refine ⟨by omega, by omega, ?_, fun h => absurd h (by decide)⟩
    intro n h1 h2
    obtain rfl : n = 1024 := by omega
    exact hun

/-- Two pages are looked for in a range of one, and its start is returned. -/
theorem not_finds_heapMachine : (∀ va, getMapping heapMachine va ≠ none) ∧
    Returns (findFreeRange · heapMachine 0x400000 0x401000 0x2000 false) 0x400000 ∧
    ¬Finds heapMachine 0x400000 0x401000 0x2000 false := by
  have hreturns : Returns
      (findFreeRange · heapMachine 0x400000 0x401000 0x2000 false) 0x400000 :=
    ⟨3, by decide⟩
  refine ⟨getMapping_heapMachine_ne_none, hreturns, ?_⟩
  rintro ⟨r, hr, hcases⟩
  have hresult := findFreeRange_result (by decide) (by decide) hr
  rw [hresult.unique (findFreeRange_result (by decide) (by decide) hreturns)] at hcases
  rcases hcases with hs | ⟨heq, -⟩
  · exact absurd hs.high (by decide)
  · exact absurd heq (by decide)

end AthenX.Paging
