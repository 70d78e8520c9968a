import Mathlib

/-!
# Received packets

`process_received_packet` of `drivers/net/stack/receive.c` takes a frame from the ring with
`e1000_receive`, and looks for the answer of a DHCP server. It goes over the options twice: from
option to option for the type of the message, and for an acknowledgement byte by byte for the
addresses. What the local buffer holds before is a parameter.
-/

namespace AthenX.Net

/-! ### The ring -/

/-- The bytes from a pointer on. -/
abbrev Buffer := ℕ → UInt8

/-- `RX_SIZE`. -/
def rxSize : ℕ := 16

/-- `PACKET_SIZE`. -/
def packetSize : ℕ := 2048

/-- A descriptor of the ring, with the bytes in its buffer. -/
structure RxDesc where
  /-- `status & E1000_RXD_STAT_DD`: has the card put a frame into the buffer? -/
  done : Bool
  length : UInt16
  data : Buffer

/-- `rx_desc_list`, `next`, and the register `E1000_RDT`. -/
structure Nic where
  desc : ℕ → RxDesc
  next : ℕ
  rdt : ℕ

/-- `memcpy` of `n` bytes. -/
def memcpy (dst src : Buffer) (n : ℕ) : Buffer := fun i => if i < n then src i else dst i

/-- `e1000_receive` with a buffer of `PACKET_SIZE` bytes. -/
def e1000Receive (nic : Nic) (buffer : Buffer) : Nic × ℤ × Buffer :=
  let d := nic.desc nic.next
  if d.done then
    let nic' : Nic :=
      { desc := Function.update nic.desc nic.next { d with done := false }
        next := (nic.next + 1) % rxSize
        rdt := (nic.rdt + 1) % rxSize }
    if packetSize ≤ d.length.toNat then (nic', -1, buffer)
    else (nic', d.length.toNat, memcpy buffer d.data d.length.toNat)
  else (nic, -1, buffer)

/-! ### The parser -/

/-- An array of `n` bytes. -/
abbrev Bytes (n : ℕ) := Fin n → UInt8

/-- `network_info_t`. -/
structure NetInfo where
  ipAddress : Bytes 4
  subnetMask : Bytes 4
  gateway : Bytes 4
  dnsServer : Bytes 4
  macAddress : Bytes 6
  hostname : Bytes 64

abbrev NetInfo.zero : NetInfo :=
  ⟨fun _ => 0, fun _ => 0, fun _ => 0, fun _ => 0, fun _ => 0, fun _ => 0⟩

/-- The bytes of a buffer from an offset on. -/
def slice (b : Buffer) (offset n : ℕ) : Bytes n := fun k => b (offset + k)

/-- `ntohs` of the two bytes at an offset. -/
def ntohs (b : Buffer) (offset : ℕ) : ℕ := (b offset).toNat * 256 + (b (offset + 1)).toNat

/-- `ntohl` of the four bytes at an offset. -/
def ntohl (b : Buffer) (offset : ℕ) : ℕ := ntohs b offset * 65536 + ntohs b (offset + 2)

/-- `ETHERNET_HEADER_SIZE + IP_HEADER_SIZE + UDP_HEADER_SIZE`. -/
def dhcpOffset : ℕ := 14 + 20 + 8

/-- `dhcp_packet->options`. -/
def options (b : Buffer) : Buffer := fun i => b (dhcpOffset + 240 + i)

/-- The size of `options`. -/
def optionsSize : ℕ := 312

/-- How the first loop ends. -/
inductive Verdict where
  | ended
  | offer
  | ack
  deriving DecidableEq, Repr

/-- The loop over the options, from byte `i` on, with at most `k` iterations to go. -/
def walk (o : Buffer) : ℕ → ℕ → Verdict
  | 0, _ => .ended
  | k + 1, i =>
      if i < optionsSize ∧ o i ≠ 255 then
        if o i = 53 ∧ o (i + 1) = 1 then
          if o (i + 2) = 2 then .offer
          else if o (i + 2) = 5 then .ack
          else walk o k (i + 2 + (o (i + 1)).toNat)
        else walk o k (i + 2 + (o (i + 1)).toNat)
      else .ended

/-- The body of the second loop. -/
def scanStep (o : Buffer) (j : ℕ) (info : NetInfo) : NetInfo :=
  let info :=
    if o j = 1 ∧ o (j + 1) = 4 then { info with subnetMask := slice o (j + 2) 4 } else info
  let info := if o j = 3 ∧ o (j + 1) = 4 then { info with gateway := slice o (j + 2) 4 } else info
  if o j = 6 ∧ o (j + 1) = 4 then { info with dnsServer := slice o (j + 2) 4 } else info

/-- The second loop, from byte `j` on, with at most `k` iterations to go. -/
def scan (o : Buffer) : ℕ → ℕ → NetInfo → NetInfo
  | 0, _, info => info
  | k + 1, j, info =>
      if j < optionsSize ∧ o j ≠ 255 then scan o k (j + 1) (scanStep o j info) else info

/-- `strncpy` into an array of the same length: after a zero, only zeros. -/
def strncpy {n : ℕ} (src : Bytes n) : Bytes n := fun k => if ∃ i ≤ k, src i = 0 then 0 else src k

/-- What an acknowledgement changes, from `yiaddr` and `sname` in the packet. -/
def acknowledge (mac : Bytes 6) (b : Buffer) (info : NetInfo) : NetInfo :=
  let info := { info with ipAddress := slice b (dhcpOffset + 16) 4 }
  let info := scan (options b) optionsSize 0 info
  { info with
    macAddress := mac
    hostname := Function.update (strncpy (slice b (dhcpOffset + 44) 64)) 63 0 }

/-- The parser: the configuration, and whether `packet_received` is lowered. -/
def parse (mac : Bytes 6) (b : Buffer) (info : NetInfo) : NetInfo × Bool :=
  if ntohs b 12 ≠ 0x0800 then (info, false)
  else if b (14 + 9) ≠ 17 then (info, false)
  else if ntohs b (34 + 2) ≠ 68 ∨ ntohs b 34 ≠ 67 then (info, false)
  else if ntohl b (dhcpOffset + 236) ≠ 0x63825363 then (info, false)
  else
    match walk (options b) optionsSize 0 with
    | .offer => (info, false)
    | .ack => (acknowledge mac b info, false)
    | .ended => (info, true)

/-- The variables of the receiver. -/
structure Receiver where
  nic : Nic
  packetReceived : Int32
  netInfo : NetInfo

/-- The descriptor that `e1000_receive` looks at. -/
def Receiver.current (s : Receiver) : RxDesc := s.nic.desc s.nic.next

/-- `process_received_packet`, where `stale` is what the local buffer holds. -/
def processReceivedPacket (mac : Bytes 6) (stale : Buffer) (s : Receiver) : Receiver :=
  let (nic, length, buffer) := e1000Receive s.nic stale
  if length < 0 then { s with nic := nic }
  else if s.packetReceived ≤ 0 then { s with nic := nic }
  else
    let (info, fell) := parse mac buffer s.netInfo
    { nic := nic
      packetReceived := if fell then s.packetReceived - 1 else s.packetReceived
      netInfo := info }

theorem exists_ne_bytes (a : Bytes 4) : ∃ a' : Bytes 4, a' ≠ a :=
  ⟨fun k => a k + 1, fun h => by simpa using congrFun h 0⟩

/-! ### The first loop -/

/-- The message type 2 or 5 at byte `i`. -/
def Typed (o : Buffer) (i : ℕ) : Prop :=
  o i = 53 ∧ o (i + 1) = 1 ∧ (o (i + 2) = 2 ∨ o (i + 2) = 5)

/-- From byte `i` on the walk comes to an acknowledgement, option by option. -/
inductive Acked (o : Buffer) : ℕ → Prop
  | here {i : ℕ} : i < optionsSize → o i = 53 → o (i + 1) = 1 → o (i + 2) = 5 → Acked o i
  | later {i : ℕ} : i < optionsSize → o i ≠ 255 → ¬Typed o i →
      Acked o (i + 2 + (o (i + 1)).toNat) → Acked o i

section

variable {o o' : Buffer} {i j k : ℕ}

theorem walk_of_end (h : ¬(i < optionsSize ∧ o i ≠ 255)) : walk o k i = .ended := by
  cases k with
  | zero => rfl
  | succ k => simp [walk, if_neg h]

theorem walk_succ_of_not_typed (h : i < optionsSize ∧ o i ≠ 255) (ht : ¬Typed o i) :
    walk o (k + 1) i = walk o k (i + 2 + (o (i + 1)).toNat) := by
  simp only [walk, if_pos h]
  split
  · next hcode =>
    have hne : o (i + 2) ≠ 2 ∧ o (i + 2) ≠ 5 :=
      not_or.mp fun hor => ht ⟨hcode.1, hcode.2, hor⟩
    rw [if_neg hne.1, if_neg hne.2]
  · rfl

theorem acked_iff_of_not_typed (hi : i < optionsSize) (hne : o i ≠ 255) (ht : ¬Typed o i) :
    Acked o i ↔ Acked o (i + 2 + (o (i + 1)).toNat) := by
  constructor
  · intro hack
    cases hack with
    | here _ hcode hlen hfive => exact absurd ⟨hcode, hlen, .inr hfive⟩ ht
    | later _ _ _ hrest => exact hrest
  · exact fun hrest => .later hi hne ht hrest

theorem acked_iff_of_typed (hi : i < optionsSize) (ht : Typed o i) : Acked o i ↔ o (i + 2) = 5 := by
  constructor
  · intro hack
    cases hack with
    | here _ _ _ hfive => exact hfive
    | later _ _ hnot => exact absurd ht hnot
  · exact fun hfive => .here hi ht.1 ht.2.1 hfive

/-- **The first loop** finds an acknowledgement exactly where there is one on its way. -/
theorem walk_eq_ack_iff : ∀ {k i : ℕ}, optionsSize ≤ i + k →
    (walk o k i = .ack ↔ Acked o i) := by
  intro k
  induction k with
  | zero =>
    intro i hk
    constructor
    · intro h
      cases h
    · intro h
      cases h with
      | here hi | later hi => omega
  | succ k ih =>
    intro i hk
    by_cases h : i < optionsSize ∧ o i ≠ 255
    · by_cases ht : Typed o i
      · rw [acked_iff_of_typed h.1 ht]
        obtain ⟨hcode, hlen, htype | htype⟩ := ht
        · simp [walk, h, hcode, hlen, htype]
        · simp [walk, h, hcode, hlen, htype]
      · rw [walk_succ_of_not_typed h ht, ih (by omega), acked_iff_of_not_typed h.1 h.2 ht]
    · rw [walk_of_end h]
      constructor
      · intro hack
        cases hack
      · intro hack
        cases hack with
        | here hi hcode => exact absurd ⟨hi, by rw [hcode]; decide⟩ h
        | later hi hne => exact absurd ⟨hi, hne⟩ h

/-! ### The whole parser -/

/-- The bytes of an answer: the types of frame and packet, the ports and the cookie. -/
def headerBytes : List (ℕ × UInt8) :=
  [(12, 8), (13, 0), (23, 17), (34, 0), (35, 67), (36, 0), (37, 68), (278, 0x63), (279, 0x82),
    (280, 0x53), (281, 0x63)]

/-- The bytes in front of the options are those of an answer. -/
def Header (b : Buffer) : Prop := ∀ x ∈ headerBytes, b x.1 = x.2

theorem ntohs_eq_iff (b : Buffer) (offset : ℕ) (hi lo : UInt8) :
    ntohs b offset = hi.toNat * 256 + lo.toNat ↔ b offset = hi ∧ b (offset + 1) = lo := by
  have h1 := (b (offset + 1)).toNat_lt
  have h2 := lo.toNat_lt
  rw [ntohs, ← UInt8.toNat_inj, ← UInt8.toNat_inj]
  omega

theorem ntohs_lt (b : Buffer) (offset : ℕ) : ntohs b offset < 65536 := by
  have h1 := (b offset).toNat_lt
  have h2 := (b (offset + 1)).toNat_lt
  rw [ntohs]
  omega

theorem header_iff (b : Buffer) : Header b ↔ ntohs b 12 = 0x0800 ∧ b (14 + 9) = 17 ∧
    (ntohs b (34 + 2) = 68 ∧ ntohs b 34 = 67) ∧ ntohl b (dhcpOffset + 236) = 0x63825363 := by
  have hcookie : ntohl b (dhcpOffset + 236) = 0x63825363 ↔
      ntohs b 278 = 0x6382 ∧ ntohs b 280 = 0x5363 := by
    have hlow := ntohs_lt b 280
    show ntohs b 278 * 65536 + ntohs b 280 = _ ↔ _
    omega
  have htype : ntohs b 12 = 0x0800 ↔ b 12 = 8 ∧ b 13 = 0 := ntohs_eq_iff b 12 8 0
  have hdest : ntohs b (34 + 2) = 68 ↔ b 36 = 0 ∧ b 37 = 68 := ntohs_eq_iff b 36 0 68
  have hsrc : ntohs b 34 = 67 ↔ b 34 = 0 ∧ b 35 = 67 := ntohs_eq_iff b 34 0 67
  have hhigh : ntohs b 278 = 0x6382 ↔ b 278 = 0x63 ∧ b 279 = 0x82 := ntohs_eq_iff b 278 0x63 0x82
  have hlow : ntohs b 280 = 0x5363 ↔ b 280 = 0x53 ∧ b 281 = 0x63 := ntohs_eq_iff b 280 0x53 0x63
  simp only [Header, headerBytes, List.forall_mem_cons, List.not_mem_nil, false_imp_iff,
    implies_true, and_true]
  constructor
  · rintro ⟨h12, h13, h23, h34, h35, h36, h37, h278, h279, h280, h281⟩
    exact ⟨htype.mpr ⟨h12, h13⟩, h23, ⟨hdest.mpr ⟨h36, h37⟩, hsrc.mpr ⟨h34, h35⟩⟩,
      hcookie.mpr ⟨hhigh.mpr ⟨h278, h279⟩, hlow.mpr ⟨h280, h281⟩⟩⟩
  · rintro ⟨h1, h2, ⟨h3, h4⟩, h5⟩
    obtain ⟨h12, h13⟩ := htype.mp h1
    obtain ⟨h36, h37⟩ := hdest.mp h3
    obtain ⟨h34, h35⟩ := hsrc.mp h4
    obtain ⟨h278, h279⟩ := hhigh.mp (hcookie.mp h5).1
    obtain ⟨h280, h281⟩ := hlow.mp (hcookie.mp h5).2
    exact ⟨h12, h13, h2, h34, h35, h36, h37, h278, h279, h280, h281⟩

/-- **What the parser does to the configuration.** -/
theorem parse_fst (mac : Bytes 6) (b : Buffer) (info : NetInfo) :
    (Header b ∧ Acked (options b) 0 ∧ (parse mac b info).1 = acknowledge mac b info) ∨
      ¬(Header b ∧ Acked (options b) 0) ∧ (parse mac b info).1 = info := by
  rw [header_iff, ← walk_eq_ack_iff (k := optionsSize) (by omega)]
  unfold parse
  split
  · next h => exact .inr ⟨fun hh => h hh.1.1, rfl⟩
  · split
    · next h => exact .inr ⟨fun hh => h hh.1.2.1, rfl⟩
    · split
      · next h => exact .inr ⟨fun hh => by omega, rfl⟩
      · split
        · next h => exact .inr ⟨fun hh => h hh.1.2.2.2, rfl⟩
        · next h1 h2 h3 h4 =>
          cases hw : walk (options b) optionsSize 0 with
          | offer | ended => exact .inr ⟨fun hh => Verdict.noConfusion hh.2, rfl⟩
          | ack => exact .inl ⟨⟨by omega, by simpa using h2, by omega, by omega⟩, rfl, rfl⟩

/-- `e1000_receive` with a frame of a valid length. -/
theorem e1000Receive_snd {s : Receiver} (hdone : s.current.done = true)
    (hshort : s.current.length.toNat < packetSize) (stale : Buffer) :
    (e1000Receive s.nic stale).2 = ((s.current.length.toNat : ℤ),
      memcpy stale s.current.data s.current.length.toNat) := by
  simp only [Receiver.current] at hdone hshort ⊢
  simp [e1000Receive, hdone, if_neg (Nat.not_le.mpr hshort)]

/-- `e1000_receive` without one. -/
theorem e1000Receive_length {s : Receiver}
    (h : ¬(s.current.done = true ∧ s.current.length.toNat < packetSize)) (stale : Buffer) :
    (e1000Receive s.nic stale).2.1 = -1 := by
  simp only [e1000Receive]
  split
  · next hdone =>
    have hlong : packetSize ≤ (s.nic.desc s.nic.next).length.toNat :=
      Nat.not_lt.mp fun hlt => h ⟨hdone, hlt⟩
    rw [if_pos hlong]
  · rfl

/-- A frame of a valid length is looked at if the counter is positive. -/
theorem netInfo_processReceivedPacket {s : Receiver} (hdone : s.current.done = true)
    (hshort : s.current.length.toNat < packetSize) (mac : Bytes 6) (stale : Buffer)
    (info : NetInfo) :
    (processReceivedPacket mac stale { s with netInfo := info }).netInfo =
      if 0 < s.packetReceived then
        (parse mac (memcpy stale s.current.data s.current.length.toNat) info).1
      else info := by
  have hrecv := e1000Receive_snd hdone hshort stale
  simp only [processReceivedPacket, hrecv]
  rw [if_neg (by omega)]
  split
  · next hle => rw [if_neg (Int32.not_lt.mpr hle)]
  · next hle => rw [if_pos (Int32.not_le.mp hle)]

/-! ### The second loop -/

/-- The addresses that the second loop looks for. -/
inductive Field where
  | subnetMask
  | gateway
  | dnsServer
  deriving DecidableEq, Repr

/-- The code of their options. -/
def Field.code : Field → UInt8
  | .subnetMask => 1
  | .gateway => 3
  | .dnsServer => 6

/-- The address in the configuration. -/
def NetInfo.get (info : NetInfo) : Field → Bytes 4
  | .subnetMask => info.subnetMask
  | .gateway => info.gateway
  | .dnsServer => info.dnsServer

/-- From byte `j` on, byte `i` is taken for the option for `f`: the code, the length 4, and no byte
255 before. -/
structure Hit (o : Buffer) (f : Field) (j i : ℕ) : Prop where
  le : j ≤ i
  lt : i < optionsSize
  running : ∀ l, j ≤ l → l ≤ i → o l ≠ 255
  code : o i = f.code
  length : o (i + 1) = 4

/-- The last such byte. -/
def LastHit (o : Buffer) (f : Field) (j i : ℕ) : Prop := Hit o f j i ∧ ∀ l, i < l → ¬Hit o f j l

variable {f : Field} {info : NetInfo}

theorem get_scanStep (o : Buffer) (j : ℕ) (info : NetInfo) (f : Field) :
    (scanStep o j info).get f =
      if o j = f.code ∧ o (j + 1) = 4 then slice o (j + 2) 4 else info.get f := by
  by_cases hlen : o (j + 1) = 4
  · cases f <;> simp [scanStep, NetInfo.get, Field.code, hlen]
    all_goals
      by_cases h1 : o j = 1
      · simp [h1]
      · by_cases h3 : o j = 3
        · simp [h3]
        · by_cases h6 : o j = 6 <;> simp [h1, h3, h6]
  · simp [scanStep, hlen]

theorem scan_succ (h : j < optionsSize ∧ o j ≠ 255) :
    scan o (k + 1) j info = scan o k (j + 1) (scanStep o j info) := by
  simp [scan, if_pos h]

theorem scan_of_end (h : ¬(j < optionsSize ∧ o j ≠ 255)) : scan o k j info = info := by
  cases k with
  | zero => rfl
  | succ k => simp [scan, if_neg h]

theorem hit_succ_iff (h : j < optionsSize ∧ o j ≠ 255) :
    Hit o f (j + 1) i ↔ j < i ∧ Hit o f j i := by
  constructor
  · intro hit
    refine ⟨hit.le, ⟨by have := hit.le; omega, hit.lt, fun l hl hle => ?_, hit.code, hit.length⟩⟩
    rcases Nat.eq_or_lt_of_le hl with rfl | hlt
    · exact h.2
    · exact hit.running l hlt hle
  · rintro ⟨hlt, hit⟩
    exact ⟨hlt, hit.lt, fun l hl hle => hit.running l (by omega) hle, hit.code, hit.length⟩

theorem get_scan_of_not_hit (hno : ∀ i, ¬Hit o f j i) : (scan o k j info).get f = info.get f := by
  induction k generalizing j info with
  | zero => rfl
  | succ k ih =>
    by_cases h : j < optionsSize ∧ o j ≠ 255
    · have hnot : ¬(o j = f.code ∧ o (j + 1) = 4) := by
        rintro ⟨hcode, hlen⟩
        refine hno j ⟨Nat.le_refl j, h.1, fun l hl hle => ?_, hcode, hlen⟩
        rw [Nat.le_antisymm hle hl]
        exact h.2
      rw [scan_succ h, ih fun i hi => hno i ((hit_succ_iff h).mp hi).2, get_scanStep, if_neg hnot]
    · rw [scan_of_end h]

/-- **The second loop**: the address at the last hit is taken. -/
theorem get_scan_of_lastHit (hlast : LastHit o f j i) (hk : i < j + k) :
    (scan o k j info).get f = slice o (i + 2) 4 := by
  induction k generalizing j info with
  | zero => exact absurd hlast.1.le (by omega)
  | succ k ih =>
    obtain ⟨hit, hmax⟩ := hlast
    have h : j < optionsSize ∧ o j ≠ 255 :=
      ⟨Nat.lt_of_le_of_lt hit.le hit.lt, hit.running j (Nat.le_refl j) hit.le⟩
    rw [scan_succ h]
    rcases Nat.eq_or_lt_of_le hit.le with rfl | hlt
    · rw [get_scan_of_not_hit, get_scanStep, if_pos ⟨hit.code, hit.length⟩]
      intro l hl
      obtain ⟨hlt, hl⟩ := (hit_succ_iff h).mp hl
      exact hmax l hlt hl
    · exact ih ⟨(hit_succ_iff h).mpr ⟨hlt, hit⟩,
        fun l hl hl' => hmax l hl ((hit_succ_iff h).mp hl').2⟩ (by omega)

theorem exists_lastHit (hit : Hit o f j i) : ∃ l, i ≤ l ∧ LastHit o f j l := by
  -- the hits are below the size of the options, and the distance to it decreases
  induction hn : optionsSize - i using Nat.strong_induction_on generalizing i with
  | _ n ih =>
    by_cases hmore : ∃ l, i < l ∧ Hit o f j l
    · obtain ⟨l, hl, hit'⟩ := hmore
      have hlt := hit'.lt
      obtain ⟨m, hm, hlast⟩ := ih (optionsSize - l) (by omega) hit' rfl
      exact ⟨m, by omega, hlast⟩
    · exact ⟨i, Nat.le_refl i, hit, fun l hl hit' => hmore ⟨l, hl, hit'⟩⟩

theorem ipAddress_scan (o : Buffer) (k j : ℕ) (info : NetInfo) :
    (scan o k j info).ipAddress = info.ipAddress := by
  induction k generalizing j info with
  | zero => rfl
  | succ k ih =>
    by_cases h : j < optionsSize ∧ o j ≠ 255
    · rw [scan_succ h, ih]
      simp only [scanStep]
      split_ifs <;> rfl
    · rw [scan_of_end h]

theorem get_acknowledge (mac : Bytes 6) (b : Buffer) (info : NetInfo) (f : Field) :
    (acknowledge mac b info).get f = (scan (options b) optionsSize 0
      { info with ipAddress := slice b (dhcpOffset + 16) 4 }).get f := by
  cases f <;> rfl

end

end AthenX.Net
