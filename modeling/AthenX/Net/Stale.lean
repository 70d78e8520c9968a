import AthenX.Net.Packet

/-!
# Bytes that were not received

`process_received_packet` copies a frame into a local buffer and does not look at its length again,
so behind the end of a short frame it reads what earlier calls have left on the stack. These bytes
have no influence if a byte of the header is wrong, or if the loops over the options end before. In
all other cases there are two contents with which two configurations are left.
-/

namespace AthenX.Net

/-! ### The property and the condition -/

/-- Any two contents of the local buffer lead to the same configuration. -/
def Undisturbed (mac : Bytes 6) (s : Receiver) : Prop :=
  ∀ info stale stale', (processReceivedPacket mac stale { s with netInfo := info }).netInfo =
    (processReceivedPacket mac stale' { s with netInfo := info }).netInfo

/-- Among the first `n` bytes is one that an answer does not have. -/
def Rejected (data : Buffer) (n : ℕ) : Prop := ∃ x ∈ headerBytes, x.1 < n ∧ data x.1 ≠ x.2

/-- How the first loop ends, if the first `m` bytes tell. A length in the last two bytes does not
matter. -/
def settled (o : Buffer) (m : ℕ) : ℕ → ℕ → Option Verdict
  | 0, _ => some .ended
  | k + 1, i =>
      if optionsSize ≤ i then some .ended
      else if m ≤ i then none
      else if o i = 255 then some .ended
      else if m ≤ i + 1 then
        if o i ≠ 53 ∧ optionsSize ≤ i + 2 then some .ended else none
      else if o i = 53 ∧ o (i + 1) = 1 then
        if m ≤ i + 2 then none
        else if o (i + 2) = 2 then some .offer
        else if o (i + 2) = 5 then some .ack
        else settled o m k (i + 2 + (o (i + 1)).toNat)
      else settled o m k (i + 2 + (o (i + 1)).toNat)

/-- The second loop stops within the first `m` bytes, with its addresses. -/
def ScanSettled (o : Buffer) (m : ℕ) : Prop :=
  ∃ e ≤ m, (e = optionsSize ∨ e < optionsSize ∧ e < m ∧ o e = 255) ∧
    ∀ j < e, o j ≠ 255 ∧ ∀ f : Field, o j = f.code → j + 1 < m ∧ (o (j + 1) = 4 → j + 5 < m)

/-- The loops over the options end within the first `n` bytes of the frame. -/
def Decided (data : Buffer) (n : ℕ) : Prop :=
  ∃ v, settled (options data) (n - (dhcpOffset + 240)) optionsSize 0 = some v ∧
    (v = .ack → ScanSettled (options data) (n - (dhcpOffset + 240)))

/-! ### The first loop -/

/-- The buffers that have the same first `m` bytes. -/
def Agree (m : ℕ) (o o' : Buffer) : Prop := ∀ i < m, o' i = o i

/-- The first `m` bytes of a buffer, then a few others, then always the same. -/
def patched (o : Buffer) (m : ℕ) (patch : List UInt8) (x : UInt8) : Buffer := fun i =>
  if i < m then o i else patch.getD (i - m) x

/-- The first `m` bytes of a buffer, and behind them an acknowledgement at byte `i`. -/
def ackAt (o : Buffer) (m i : ℕ) : Buffer := fun l =>
  if l < m then o l else if l = i then 53 else if l = i + 1 then 1 else if l = i + 2 then 5 else 0

section

variable {o o' : Buffer} {m k i : ℕ} {patch : List UInt8} {x : UInt8} {v : Verdict}

theorem agree_patched (o : Buffer) (m : ℕ) (patch : List UInt8) (x : UInt8) :
    Agree m o (patched o m patch x) := fun _ hi => if_pos hi

theorem patched_add (o : Buffer) (m : ℕ) (patch : List UInt8) (x : UInt8) (l : ℕ) :
    patched o m patch x (m + l) = patch.getD l x := by
  rw [patched, if_neg (by omega), Nat.add_sub_cancel_left]

theorem patched_of_ge (h : m + patch.length ≤ i) : patched o m patch x i = x := by
  rw [patched, if_neg (by omega), List.getD_eq_getElem?_getD, List.getElem?_eq_none (by omega),
    Option.getD_none]

theorem not_acked_of_ge (h : optionsSize ≤ i) : ¬Acked o i := by
  intro hack
  cases hack with
  | here hi | later hi => omega

theorem not_acked_of_end (h : o i = 255) : ¬Acked o i := by
  intro hack
  cases hack with
  | here _ hcode => rw [h] at hcode; exact absurd hcode (by decide)
  | later _ hne => exact hne h

theorem Agree.acked_iff (ha : Agree m o o') (hi : i < optionsSize) (hm : i + 1 < m)
    (hne : o i ≠ 255)
    (ht : o i = 53 ∧ o (i + 1) = 1 → i + 2 < m ∧ o (i + 2) ≠ 2 ∧ o (i + 2) ≠ 5) :
    Acked o' i ↔ Acked o' (i + 2 + (o (i + 1)).toNat) := by
  have h0 : o' i = o i := ha i (by omega)
  have h1 : o' (i + 1) = o (i + 1) := ha (i + 1) hm
  rw [← h1]
  refine acked_iff_of_not_typed hi (by rw [h0]; exact hne) ?_
  rintro ⟨hcode, hlen, htype⟩
  obtain ⟨hlt, htwo, hfive⟩ := ht ⟨h0.symm.trans hcode, h1.symm.trans hlen⟩
  rw [ha (i + 2) hlt] at htype
  exact htype.elim htwo hfive

theorem acked_ackAt (hi : i < optionsSize) (h0 : i < m → o i = 53) (h1 : i + 1 < m → o (i + 1) = 1)
    (h2 : m ≤ i + 2) : Acked (ackAt o m i) i := by
  refine .here hi ?_ ?_ ?_
  · by_cases h : i < m
    · simp [ackAt, h0 h]
    · simp [ackAt, h]
  · by_cases h : i + 1 < m
    · simp [ackAt, h1 h]
    · simp [ackAt, h]
  · simp [ackAt, Nat.not_lt.mpr h2]

/-- **What the first `m` bytes settle** holds for every buffer that starts with them. -/
theorem settled_some : ∀ {k i : ℕ}, optionsSize ≤ i + k → settled o m k i = some v →
    Agree m o o' → (v = .ack ↔ Acked o' i) := by
  intro k
  induction k with
  | zero =>
    intro i hk hv _
    cases hv
    exact ⟨Verdict.noConfusion, fun h => absurd h (not_acked_of_ge (by omega))⟩
  | succ k ih =>
    intro i hk hv ha
    have hended : ∀ {v : Verdict}, some Verdict.ended = some v → ¬Acked o' i →
        (v = .ack ↔ Acked o' i) := by
      rintro v ⟨⟩ hnot
      exact ⟨Verdict.noConfusion, fun h => absurd h hnot⟩
    simp only [settled] at hv
    split_ifs at hv with h₁ h₂ h3 h4 h5 h6 h7 h8 h9
    · exact hended hv (not_acked_of_ge h₁)
    · exact hended hv (not_acked_of_end (by rw [ha i (by omega), h3]))
    · -- the next option is behind the end, whatever the length is
      refine hended hv fun hack => ?_
      have hcode : o' i ≠ 53 := by
        rw [ha i (by omega)]
        exact h5.1
      cases hack with
      | here _ hcode' => exact hcode hcode'
      | later _ _ _ hrest => exact not_acked_of_ge (by omega) hrest
    all_goals
      have hi : i < optionsSize := by omega
      have hm : i + 1 < m := by omega
      have h0 : o' i = o i := ha i (by omega)
      have h1 : o' (i + 1) = o (i + 1) := ha (i + 1) hm
    · have h2 : o' (i + 2) = 2 := by rw [ha (i + 2) (by omega), h8]
      cases hv
      rw [acked_iff_of_typed hi ⟨h0.trans h6.1, h1.trans h6.2, .inl h2⟩, h2]
      decide
    · have h2 : o' (i + 2) = 5 := by rw [ha (i + 2) (by omega), h9]
      cases hv
      exact ⟨fun _ => .here hi (h0.trans h6.1) (h1.trans h6.2) h2, fun _ => rfl⟩
    · rw [ha.acked_iff hi hm h3 fun _ => ⟨by omega, h8, h9⟩]
      exact ih (by omega) hv ha
    · rw [ha.acked_iff hi hm h3 fun htyped => absurd htyped h6]
      exact ih (by omega) hv ha

/-- **What they do not settle** can go both ways: with bytes 255 behind them, or with an
acknowledgement. -/
theorem settled_none : ∀ {k i : ℕ}, settled o m k i = none →
    ¬Acked (patched o m [] 255) i ∧ ∃ o', Agree m o o' ∧ Acked o' i := by
  intro k
  induction k with
  | zero =>
    intro i hv
    cases hv
  | succ k ih =>
    intro i hv
    have hfill : ∀ l, m ≤ l → ¬Acked (patched o m [] 255) l := fun l hl =>
      not_acked_of_end (patched_of_ge (by simpa using hl))
    have hknown : ∀ l < m, patched o m [] 255 l = o l := agree_patched o m [] 255
    have hack : ∀ l, Agree m o (ackAt o m l) := fun l l' hl' => if_pos hl'
    simp only [settled] at hv
    split_ifs at hv with h1 h2 h3 h4 h5 h6 h7 h8 h9
    · -- nothing is known of byte `i`
      exact ⟨hfill i h2, ackAt o m i, hack i,
        acked_ackAt (by omega) (by omega) (by omega) (by omega)⟩
    · -- byte `i` is the last one that is known
      have hlen : patched o m [] 255 (i + 1) = 255 := patched_of_ge (by simpa using h4)
      have ht : ¬Typed (patched o m [] 255) i := by
        rintro ⟨-, hone, -⟩
        rw [hlen] at hone
        exact absurd hone (by decide)
      refine ⟨?_, ?_⟩
      · rw [acked_iff_of_not_typed (by omega) (by rw [hknown i (by omega)]; exact h3) ht]
        exact hfill _ (by omega)
      · by_cases hcode : o i = 53
        · exact ⟨ackAt o m i, hack i, acked_ackAt (by omega) (fun _ => hcode) (by omega) (by omega)⟩
        · have hroom : i + 2 < optionsSize := by
            by_contra hge
            exact h5 ⟨hcode, Nat.not_lt.mp hge⟩
          have hcode' : ackAt o m (i + 2) i = o i := hack (i + 2) i (by omega)
          have hzero : ackAt o m (i + 2) (i + 1) = 0 := by
            simp [ackAt, Nat.not_lt.mpr h4]
          refine ⟨ackAt o m (i + 2), hack (i + 2), ?_⟩
          rw [acked_iff_of_not_typed (by omega) (by rw [hcode']; exact h3)
            fun ht => hcode (hcode'.symm.trans ht.1), hzero]
          exact acked_ackAt hroom (by omega) (by omega) (by omega)
    · -- the type of the message is not known
      have htype : patched o m [] 255 (i + 2) = 255 := patched_of_ge (by simpa using h7)
      have hlen : patched o m [] 255 (i + 1) = 1 := (hknown (i + 1) (by omega)).trans h6.2
      have ht : ¬Typed (patched o m [] 255) i := by
        rintro ⟨-, -, ht⟩
        rw [htype] at ht
        exact absurd ht (by decide)
      refine ⟨?_, ackAt o m i, hack i, acked_ackAt (by omega) (fun _ => h6.1) (fun _ => h6.2) h7⟩
      rw [acked_iff_of_not_typed (by omega) (by rw [hknown i (by omega)]; exact h3) ht, hlen]
      exact hfill _ (by simpa using Nat.le_succ_of_le h7)
    all_goals
      obtain ⟨hno, o', ha, hyes⟩ := ih hv
      have hnext : ∀ o'', Agree m o o'' →
          (Acked o'' i ↔ Acked o'' (i + 2 + (o (i + 1)).toNat)) := by
        intro o'' ha''
        refine ha''.acked_iff (by omega) (by omega) h3 fun htyped => ?_
        first
          | exact absurd htyped h6
          | exact ⟨by omega, h8, h9⟩
      exact ⟨fun h => hno ((hnext _ (agree_patched o m [] 255)).mp h), o', ha,
        (hnext o' ha).mpr hyes⟩

/-! ### The second loop -/

/-- One byte: the bytes behind it matter only if it is the code of an address. -/
theorem scanStep_congr {j : ℕ} (h0 : o' j = o j)
    (h1 : ∀ f : Field, o j = f.code → o' (j + 1) = o (j + 1) ∧
      (o (j + 1) = 4 → slice o' (j + 2) 4 = slice o (j + 2) 4)) (info : NetInfo) :
    scanStep o' j info = scanStep o j info := by
  by_cases hcode : o j = 1 ∨ o j = 3 ∨ o j = 6
  · have hnext : o' (j + 1) = o (j + 1) ∧
        (o (j + 1) = 4 → slice o' (j + 2) 4 = slice o (j + 2) 4) := by
      rcases hcode with hcode | hcode | hcode
      · exact h1 .subnetMask hcode
      · exact h1 .gateway hcode
      · exact h1 .dnsServer hcode
    by_cases hlen : o (j + 1) = 4
    · simp [scanStep, h0, hnext.1, hnext.2 hlen]
    · simp [scanStep, hnext.1, hlen]
  · obtain ⟨h₁, h3, h6⟩ : o j ≠ 1 ∧ o j ≠ 3 ∧ o j ≠ 6 := by simpa using hcode
    simp [scanStep, h0, h₁, h3, h6]

theorem scan_eq_of_settled (h : ScanSettled o m) (ha : Agree m o o') (info : NetInfo) :
    scan o' optionsSize 0 info = scan o optionsSize 0 info := by
  obtain ⟨e, hem, hend, hbytes⟩ := h
  have hloop : ∀ (k j : ℕ) (info : NetInfo), j ≤ e → scan o' k j info = scan o k j info := by
    intro k
    induction k with
    | zero => intro j info _; rfl
    | succ k ih =>
      intro j info hj
      rcases Nat.eq_or_lt_of_le hj with rfl | hlt
      · rcases hend with rfl | ⟨-, hlt, hend⟩
        · rw [scan_of_end (by omega), scan_of_end (by omega)]
        · rw [scan_of_end fun hh => hh.2 ((ha j hlt).trans hend), scan_of_end fun hh => hh.2 hend]
      · obtain ⟨hne, hcode⟩ := hbytes j hlt
        have h0 : o' j = o j := ha j (by omega)
        have hin : j < optionsSize := by
          rcases hend with rfl | ⟨hlt', -⟩ <;> omega
        have hstep : scanStep o' j info = scanStep o j info := by
          refine scanStep_congr h0 (fun f hf => ?_) info
          obtain ⟨hnext, hdata⟩ := hcode f hf
          refine ⟨ha (j + 1) hnext, fun hlen => funext fun k => ?_⟩
          have hfive := hdata hlen
          exact ha (j + 2 + k) (by omega)
        rw [scan_succ ⟨hin, by rw [h0]; exact hne⟩, scan_succ ⟨hin, hne⟩, hstep]
        exact ih (j + 1) _ hlt
  exact hloop optionsSize 0 info (Nat.zero_le e)

theorem get_scan_three {f : Field} {j : ℕ} (hit : Hit o' f 0 j) (hx : ∀ i, j + 5 ≤ i → o' i = x)
    (info : NetInfo) : (scan o' optionsSize 0 info).get f 3 = x := by
  obtain ⟨l, hl, hlast⟩ := exists_lastHit hit
  rw [get_scan_of_lastHit hlast (by have := hlast.1.lt; omega)]
  exact hx (l + 2 + 3) (by omega)

/-- A hit that needs bytes behind the first `m`. -/
theorem hit_patched {f : Field} {j : ℕ} (hj : j < optionsSize)
    (hrun : ∀ l < j, l < m ∧ o l ≠ 255) (hcode : patched o m patch x j = f.code)
    (hlen : patched o m patch x (j + 1) = 4) : Hit (patched o m patch x) f 0 j := by
  refine ⟨Nat.zero_le j, hj, fun l _ hl => ?_, hcode, hlen⟩
  rcases Nat.eq_or_lt_of_le hl with rfl | hlt
  · rw [hcode]
    cases f <;> decide
  · rw [agree_patched o m patch x l (hrun l hlt).1]
    exact (hrun l hlt).2

theorem scan_of_not_settled (h : ¬ScanSettled o m) : ∃ (f : Field) (patch : List UInt8),
    ∀ x info, (scan (patched o m patch x) optionsSize 0 info).get f 3 = x := by
  -- `e` is where the loop stops, or runs out of known bytes
  have hex : ∃ e, e = optionsSize ∨ m ≤ e ∨ o e = 255 := ⟨optionsSize, .inl rfl⟩
  obtain ⟨e, hspec, hmin⟩ : ∃ e, (e = optionsSize ∨ m ≤ e ∨ o e = 255) ∧
      ∀ l < e, ¬(l = optionsSize ∨ m ≤ l ∨ o l = 255) :=
    ⟨Nat.find hex, Nat.find_spec hex, fun l hl => Nat.find_min hex hl⟩
  have hbefore : ∀ l < e, l < m ∧ o l ≠ 255 := by
    intro l hl
    have hl' := hmin l hl
    simp only [not_or, Nat.not_le] at hl'
    exact hl'.2
  have hsize : e ≤ optionsSize := by
    by_contra hlt
    exact hmin optionsSize (by omega) (.inl rfl)
  have hem : e ≤ m := by
    by_contra hlt
    exact hmin m (by omega) (.inr (.inl (Nat.le_refl m)))
  by_cases hend : e = optionsSize ∨ e < optionsSize ∧ e < m ∧ o e = 255
  · -- the loop stops at `e`, but an address is not complete
    obtain ⟨j, hj, f, hcode, hbad⟩ : ∃ j < e, ∃ f : Field, o j = f.code ∧
        ¬(j + 1 < m ∧ (o (j + 1) = 4 → j + 5 < m)) := by
      by_contra hall
      refine h ⟨e, hem, hend, fun j hj => ⟨(hbefore j hj).2, fun f hf => ?_⟩⟩
      by_contra hbad
      exact hall ⟨j, hj, f, hf, hbad⟩
    have hjm := (hbefore j hj).1
    have hrun : ∀ l < j, l < m ∧ o l ≠ 255 := fun l hl => hbefore l (by omega)
    have hcode' : ∀ patch x, patched o m patch x j = f.code := fun patch x =>
      (agree_patched o m patch x j hjm).trans hcode
    by_cases hnext : j + 1 < m
    · have hlen : o (j + 1) = 4 := by
        by_contra hne
        exact hbad ⟨hnext, fun hlen => absurd hlen hne⟩
      refine ⟨f, [], fun x info => ?_⟩
      have hit : Hit (patched o m [] x) f 0 j := hit_patched (by omega) hrun (hcode' [] x)
        ((agree_patched o m [] x (j + 1) hnext).trans hlen)
      refine get_scan_three hit (fun i hi => patched_of_ge ?_) info
      simp only [List.length_nil]
      omega
    · obtain rfl : m = j + 1 := by omega
      refine ⟨f, [4], fun x info => ?_⟩
      have hit : Hit (patched o (j + 1) [4] x) f 0 j := hit_patched (by omega) hrun (hcode' [4] x)
        (patched_add o (j + 1) [4] x 0)
      refine get_scan_three hit (fun i hi => patched_of_ge ?_) info
      simp only [List.length_singleton]
      omega
  · -- the loop comes to byte `m`: let an address start there
    obtain rfl : e = m := by
      refine Nat.le_antisymm hem ?_
      by_contra hlt
      rcases hspec with hspec | hspec | hspec
      · exact hend (.inl hspec)
      · exact hlt hspec
      · exact hend (.inr ⟨Nat.lt_of_le_of_ne hsize fun heq => hend (.inl heq), by omega, hspec⟩)
    have hroom : e < optionsSize := Nat.lt_of_le_of_ne hsize fun heq => hend (.inl heq)
    refine ⟨.subnetMask, [1, 4], fun x info => ?_⟩
    have hit : Hit (patched o e [1, 4] x) .subnetMask 0 e :=
      hit_patched hroom hbefore (patched_add o e [1, 4] x 0) (patched_add o e [1, 4] x 1)
    refine get_scan_three hit (fun i hi => patched_of_ge ?_) info
    simp only [List.length_cons, List.length_nil]
    omega

/-! ### The frame -/

variable {data : Buffer} {n : ℕ}

theorem agree_options (stale data : Buffer) (n : ℕ) :
    Agree (n - (dhcpOffset + 240)) (options data) (options (memcpy stale data n)) := by
  intro i hi
  simp only [options, memcpy]
  rw [if_pos (by omega)]

theorem not_header_of_rejected (h : Rejected data n) (stale : Buffer) :
    ¬Header (memcpy stale data n) := by
  obtain ⟨x, hx, hlt, hne⟩ := h
  intro hh
  have heq := hh x hx
  rw [memcpy, if_pos hlt] at heq
  exact hne heq

/-- What the buffer has to hold for an answer with the options `o`. -/
def completing (o : Buffer) : Buffer := fun i =>
  if i < dhcpOffset + 240 then (headerBytes.lookup i).getD 0 else o (i - (dhcpOffset + 240))

theorem header_completing (h : ¬Rejected data n) (o : Buffer) :
    Header (memcpy (completing o) data n) := by
  intro x hx
  by_cases hlt : x.1 < n
  · rw [memcpy, if_pos hlt]
    by_contra hne
    exact h ⟨x, hx, hlt, hne⟩
  · rw [memcpy, if_neg hlt]
    have hall : ∀ x ∈ headerBytes, x.1 < dhcpOffset + 240 ∧ headerBytes.lookup x.1 = some x.2 := by
      decide
    obtain ⟨hin, hlookup⟩ := hall x hx
    rw [completing, if_pos hin, hlookup, Option.getD_some]

theorem options_completing (ho : Agree (n - (dhcpOffset + 240)) (options data) o) :
    options (memcpy (completing o) data n) = o := by
  funext i
  simp only [options, memcpy, completing]
  split
  · next hlt => exact (ho i (by omega)).symm
  · rw [if_neg (by omega), Nat.add_sub_cancel_left]

theorem lt_of_settled (h : settled o (n - (dhcpOffset + 240)) optionsSize 0 = some v) :
    dhcpOffset + 240 < n := by
  by_contra hle
  rw [show n - (dhcpOffset + 240) = 0 by omega] at h
  simp [settled, optionsSize] at h

theorem acknowledge_memcpy (hn : dhcpOffset + 240 < n)
    (hs : ScanSettled (options data) (n - (dhcpOffset + 240))) (mac : Bytes 6) (stale : Buffer)
    (info : NetInfo) :
    acknowledge mac (memcpy stale data n) info = acknowledge mac data info := by
  have hslice : ∀ offset k, offset + k ≤ dhcpOffset + 240 →
      slice (memcpy stale data n) offset k = slice data offset k := by
    intro offset k hk
    funext i
    exact if_pos (by omega)
  have hip := hslice (dhcpOffset + 16) 4 (by decide)
  have hname := hslice (dhcpOffset + 44) 64 (by decide)
  have hscan := scan_eq_of_settled hs (agree_options stale data n)
  simp [acknowledge, hip, hname, hscan]

theorem header_memcpy_iff (hn : dhcpOffset + 240 < n) (stale : Buffer) :
    Header (memcpy stale data n) ↔ Header data := by
  have hall : ∀ x ∈ headerBytes, x.1 < dhcpOffset + 240 := by decide
  have hbyte : ∀ x ∈ headerBytes, memcpy stale data n x.1 = data x.1 := fun x hx =>
    if_pos (Nat.lt_trans (hall x hx) hn)
  exact forall₂_congr fun x hx => by rw [hbyte x hx]

/-- **The parser on a frame that is rejected or decided** does not look at the rest of the buffer.
-/
theorem parse_eq_of_decided (h : Rejected data n ∨ Decided data n) (mac : Bytes 6)
    (stale stale' : Buffer) (info : NetInfo) :
    (parse mac (memcpy stale data n) info).1 = (parse mac (memcpy stale' data n) info).1 := by
  have hkept : ∀ stale, ¬(Header (memcpy stale data n) ∧
      Acked (options (memcpy stale data n)) 0) → (parse mac (memcpy stale data n) info).1 = info :=
    fun stale hnot => ((parse_fst mac _ info).resolve_left fun hyes => hnot ⟨hyes.1, hyes.2.1⟩).2
  rcases h with hrej | ⟨v, hv, hscan⟩
  · rw [hkept stale fun hh => not_header_of_rejected hrej stale hh.1,
      hkept stale' fun hh => not_header_of_rejected hrej stale' hh.1]
  · have hn := lt_of_settled hv
    have hack : ∀ stale, v = .ack ↔ Acked (options (memcpy stale data n)) 0 := fun stale =>
      settled_some (by omega) hv (agree_options stale data n)
    by_cases hboth : Header data ∧ v = .ack
    · have hset : ∀ stale,
          (parse mac (memcpy stale data n) info).1 = acknowledge mac data info := by
        intro stale
        have hyes : Header (memcpy stale data n) ∧ Acked (options (memcpy stale data n)) 0 :=
          ⟨(header_memcpy_iff hn stale).mpr hboth.1, (hack stale).mp hboth.2⟩
        rw [((parse_fst mac _ info).resolve_right fun hnot => hnot.1 hyes).2.2,
          acknowledge_memcpy hn (hscan hboth.2)]
      rw [hset stale, hset stale']
    · have hnot : ∀ stale, ¬(Header (memcpy stale data n) ∧
          Acked (options (memcpy stale data n)) 0) := fun stale hh =>
        hboth ⟨(header_memcpy_iff hn stale).mp hh.1, (hack stale).mpr hh.2⟩
      rw [hkept stale (hnot stale), hkept stale' (hnot stale')]

/-- **The parser on any other frame** gives different results for two contents of the buffer. -/
theorem exists_parse_ne (hrej : ¬Rejected data n) (hdec : ¬Decided data n) (mac : Bytes 6) :
    ∃ info stale stale', (parse mac (memcpy stale data n) info).1 ≠
      (parse mac (memcpy stale' data n) info).1 := by
  have hset : ∀ {o}, Agree (n - (dhcpOffset + 240)) (options data) o → Acked o 0 → ∀ info,
      (parse mac (memcpy (completing o) data n) info).1 =
        acknowledge mac (memcpy (completing o) data n) info := by
    intro o ho hack info
    refine ((parse_fst mac _ info).resolve_right fun hnot => hnot.1 ?_).2.2
    rw [options_completing ho]
    exact ⟨header_completing hrej o, hack⟩
  cases hv : settled (options data) (n - (dhcpOffset + 240)) optionsSize 0 with
  | none =>
    obtain ⟨hno, o, ho, hack⟩ := settled_none hv
    set fill := patched (options data) (n - (dhcpOffset + 240)) [] 255
    have hfill : options (memcpy (completing fill) data n) = fill :=
      options_completing (agree_patched _ _ _ _)
    -- another address than the one in the packet
    obtain ⟨ip, hne⟩ := exists_ne_bytes (slice (memcpy (completing o) data n) (dhcpOffset + 16) 4)
    refine ⟨⟨ip, ip, ip, ip, mac, fun _ => 0⟩, completing o, completing fill, ?_⟩
    rw [hset ho hack, ((parse_fst mac _ _).resolve_left fun hyes => hno (hfill ▸ hyes.2.1)).2]
    intro heq
    have hip := congrArg NetInfo.ipAddress heq
    exact hne (hip.symm.trans (ipAddress_scan (options _) optionsSize 0 _))
  | some v =>
    obtain ⟨rfl, hscan⟩ : v = .ack ∧
        ¬ScanSettled (options data) (n - (dhcpOffset + 240)) := by
      by_contra hnot
      refine hdec ⟨v, hv, fun hack => ?_⟩
      by_contra hscan
      exact hnot ⟨hack, hscan⟩
    obtain ⟨f, patch, hbyte⟩ := scan_of_not_settled hscan
    have hagree : ∀ x, Agree (n - (dhcpOffset + 240)) (options data)
        (patched (options data) (n - (dhcpOffset + 240)) patch x) := agree_patched _ _ _
    obtain ⟨stale, hlast⟩ : ∃ stale : UInt8 → Buffer, ∀ x info,
        (parse mac (memcpy (stale x) data n) info).1.get f 3 = x := by
      refine ⟨fun x => completing (patched (options data) (n - (dhcpOffset + 240)) patch x), ?_⟩
      intro x info
      rw [hset (hagree x) ((settled_some (by omega) hv (hagree x)).mp rfl), get_acknowledge,
        options_completing (hagree x)]
      exact hbyte x _
    let info : NetInfo := ⟨fun _ => 0, fun _ => 0, fun _ => 0, fun _ => 0, mac, fun _ => 0⟩
    refine ⟨info, stale 0, stale 2, fun heq => ?_⟩
    have hzero := hlast 0 info
    rw [heq, hlast 2 info] at hzero
    exact absurd hzero (by decide)

end

/-- **Which frames are read without the bytes behind their end**: those that are not looked at, and
those whose bytes reject the frame or decide both loops. -/
theorem undisturbed_iff (mac : Bytes 6) (s : Receiver) :
    Undisturbed mac s ↔ s.current.done = false ∨ packetSize ≤ s.current.length.toNat ∨
      s.packetReceived ≤ 0 ∨ Rejected s.current.data s.current.length.toNat ∨
      Decided s.current.data s.current.length.toNat := by
  by_cases hdone : s.current.done = false
  · refine ⟨fun _ => .inl hdone, fun _ info stale stale' => ?_⟩
    simp only [Receiver.current] at hdone
    simp [processReceivedPacket, e1000Receive, hdone]
  · by_cases hlong : packetSize ≤ s.current.length.toNat
    · refine ⟨fun _ => .inr (.inl hlong), fun _ info stale stale' => ?_⟩
      simp only [Receiver.current] at hdone hlong
      simp [processReceivedPacket, e1000Receive, hdone, hlong]
    · have hinfo := netInfo_processReceivedPacket (by simpa using hdone) (Nat.not_le.mp hlong) mac
      by_cases hcount : 0 < s.packetReceived
      · simp only [if_pos hcount] at hinfo
        have hle : ¬s.packetReceived ≤ 0 := Int32.not_le.mpr hcount
        simp only [Undisturbed, hinfo, hdone, hlong, hle, false_or, reduceCtorEq]
        refine ⟨fun h => ?_, fun h info stale stale' => parse_eq_of_decided h mac stale stale' info⟩
        by_contra hnot
        obtain ⟨hrej, hdec⟩ := not_or.mp hnot
        obtain ⟨info, stale, stale', hne⟩ := exists_parse_ne hrej hdec mac
        exact hne (h info stale stale')
      · simp only [if_neg hcount] at hinfo
        refine ⟨fun _ => .inr (.inr (.inl (Int32.not_lt.mp hcount))), fun _ info stale stale' => ?_⟩
        rw [hinfo, hinfo]

/-! ### Samples -/

/-- A receiver with a frame of zeros in the ring, and its interrupt counted. -/
def shortFrame (length : UInt16) : Receiver where
  nic := ⟨fun i => ⟨i == 0, length, fun _ => 0⟩, 0, 0⟩
  packetReceived := 1
  netInfo := .zero

/-- Of an empty frame everything is taken from the stack. -/
theorem not_undisturbed_shortFrame : ¬Undisturbed (fun _ => 0) (shortFrame 0) := by
  have hrej : ¬Rejected (fun _ => 0) 0 := by
    rintro ⟨x, -, hlt, -⟩
    exact absurd hlt (Nat.not_lt_zero _)
  have hdec : ¬Decided (fun _ => 0) 0 := by
    rintro ⟨v, hv, -⟩
    exact absurd (lt_of_settled hv) (Nat.not_lt_zero _)
  obtain ⟨info, stale, stale', hne⟩ := exists_parse_ne hrej hdec fun _ => 0
  have hinfo := netInfo_processReceivedPacket (s := shortFrame 0) rfl (by decide) fun _ => 0
  intro h
  have heq := h info stale stale'
  rw [hinfo, hinfo] at heq
  exact hne heq

end AthenX.Net
