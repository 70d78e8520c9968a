import AthenX.Net.Packet

/-!
# The options of an acknowledgement

The options of a DHCP packet are single zero bytes, options with a code, a length and data, and the
byte 255 at the end. The parser reads them in two ways, and neither is this one: the first loop
takes a zero byte for a code, and the second looks at every byte, also inside data, up to a byte
255.
-/

namespace AthenX.Net

/-! ### Sequences of options -/

/-- An element of the options. -/
inductive Item where
  | pad
  | opt (code : UInt8) (data : List UInt8)
  deriving DecidableEq, Repr

/-- The bytes of an element. -/
def Item.bytes : Item → List UInt8
  | .pad => [0]
  | .opt code data => code :: UInt8.ofNat data.length :: data

/-- The code is not that of a pad byte or of the end, and the length is a byte. -/
def Item.Valid : Item → Prop
  | .pad => True
  | .opt code data => code ≠ 0 ∧ code ≠ 255 ∧ data.length ≤ 255

/-- The bytes of a sequence, with the end. -/
def encode (items : List Item) : List UInt8 := items.flatMap Item.bytes ++ [255]

/-- The data of the first option with a code. -/
def lookup (code : UInt8) : List Item → Option (List UInt8)
  | [] => none
  | .pad :: items => lookup code items
  | .opt c data :: items => if c = code then some data else lookup code items

/-- The frame at hand has been received and copied to `b`, and is an acknowledgement with the
options `items`. -/
structure AckFrame (s : Receiver) (stale b : Buffer) (items : List Item) : Prop where
  done : s.current.done = true
  short : s.current.length.toNat < packetSize
  buffer : b = memcpy stale s.current.data s.current.length.toNat
  long : dhcpOffset + 240 + (encode items).length ≤ s.current.length.toNat
  header : Header b
  valid : ∀ x ∈ items, x.Valid
  fits : (encode items).length ≤ optionsSize
  field : ∀ i x, (encode items)[i]? = some x → options b i = x
  ack : Item.opt 53 [5] ∈ items

/-! ### The property and the condition -/

/-- Four bytes as an address. -/
def toBytes (data : List UInt8) : Bytes 4 := fun k => data.getD k 0

/-- The configuration after a frame, which was `info` before it. -/
abbrev Receiver.infoAfter (s : Receiver) (mac : Bytes 6) (stale : Buffer) (info : NetInfo) :
    NetInfo :=
  (processReceivedPacket mac stale { s with netInfo := info }).netInfo

/-- The function sets each address to the data of its option of length 4, and leaves it if there is
none. -/
def Configures (mac : Bytes 6) (stale : Buffer) (s : Receiver) (items : List Item) : Prop :=
  ∀ info f,
    let info' := s.infoAfter mac stale info
    match lookup (Field.code f) items with
    | none => info'.get f = info.get f
    | some data => data.length = 4 → info'.get f = toBytes data

/-- Without an option for `f`, no byte is taken for one; else the last byte taken for one has its
data behind it. -/
def Readable (o : Buffer) (items : List Item) (f : Field) : Prop :=
  match lookup f.code items with
  | none => ∀ j, ¬Hit o f 0 j
  | some data => data.length = 4 → ∃ j, LastHit o f 0 j ∧ slice o (j + 2) 4 = toBytes data

/-- There is no option with an address. -/
def NoAddress (items : List Item) : Prop :=
  ∀ (f : Field) data, lookup f.code items = some data → data.length ≠ 4

section

variable {mac : Bytes 6} {stale b : Buffer} {s : Receiver} {items : List Item}

/-- A configuration that has another address for `f`. -/
theorem exists_get_ne (a : Bytes 4) (f : Field) : ∃ info : NetInfo, info.get f ≠ a := by
  obtain ⟨a', ha'⟩ := exists_ne_bytes a
  refine ⟨⟨a', a', a', a', fun _ => 0, fun _ => 0⟩, ?_⟩
  cases f <;> exact ha'

theorem configures_of_ignored
    (hinfo : ∀ info, s.infoAfter mac stale info = info) :
    Configures mac stale s items ↔ NoAddress items := by
  constructor
  · intro h f data hdata hlen
    obtain ⟨info, hne⟩ := exists_get_ne (toBytes data) f
    have hf := h info f
    simp only [hdata, hinfo] at hf
    exact hne (hf hlen)
  · intro h info f
    simp only [hinfo]
    cases hdata : lookup f.code items with
    | none => trivial
    | some data => exact fun hlen => absurd hlen (h f data hdata)

theorem configures_of_acknowledged
    (hinfo : ∀ info, s.infoAfter mac stale info = acknowledge mac b info) :
    Configures mac stale s items ↔ ∀ f, Readable (options b) items f := by
  have hget : ∀ info f, (s.infoAfter mac stale info).get f = (scan (options b) optionsSize 0
        { info with ipAddress := slice b (dhcpOffset + 16) 4 }).get f :=
    fun info f => by rw [hinfo, get_acknowledge]
  have hnone : ∀ {f}, (∀ j, ¬Hit (options b) f 0 j) → ∀ info,
      (s.infoAfter mac stale info).get f = info.get f := by
    intro f hno info
    rw [hget, get_scan_of_not_hit hno]
    cases f <;> rfl
  have hlast : ∀ {f j}, LastHit (options b) f 0 j → ∀ info, (s.infoAfter mac stale info).get f =
        slice (options b) (j + 2) 4 := by
    intro f j hj info
    rw [hget, get_scan_of_lastHit hj (by have := hj.1.lt; omega)]
  constructor
  · intro h f
    unfold Readable
    cases hdata : lookup f.code items with
    | none =>
      intro j hit
      obtain ⟨l, -, hl⟩ := exists_lastHit hit
      obtain ⟨info, hne⟩ := exists_get_ne (slice (options b) (l + 2) 4) f
      have hf := h info f
      simp only [hdata, hlast hl] at hf
      exact hne hf.symm
    | some data =>
      intro hlen
      by_cases hit : ∃ j, Hit (options b) f 0 j
      · obtain ⟨j, hit⟩ := hit
        obtain ⟨l, -, hl⟩ := exists_lastHit hit
        have hf := h .zero f
        simp only [hdata, hlast hl] at hf
        exact ⟨l, hl, hf hlen⟩
      · obtain ⟨info, hne⟩ := exists_get_ne (toBytes data) f
        have hf := h info f
        simp only [hdata, hnone (not_exists.mp hit)] at hf
        exact absurd (hf hlen) hne
  · intro h info f
    have hf := h f
    unfold Readable at hf
    cases hdata : lookup f.code items with
    | none =>
      simp only [hdata] at hf ⊢
      exact hnone hf info
    | some data =>
      simp only [hdata] at hf ⊢
      intro hlen
      obtain ⟨j, hj, hbytes⟩ := hf hlen
      rw [hlast hj info, hbytes]

end

/-- **For which acknowledgements the configuration is right**: the second loop comes to the right
addresses, if the first one comes to the type of the message; otherwise there is no address for us.
-/
theorem configures_iff {s : Receiver} {stale b : Buffer} {items : List Item}
    (h : AckFrame s stale b items) (mac : Bytes 6) :
    Configures mac stale s items ↔
      (0 < s.packetReceived ∧ Acked (options b) 0 ∧ ∀ f, Readable (options b) items f) ∨
      (¬(0 < s.packetReceived ∧ Acked (options b) 0) ∧ NoAddress items) := by
  have hinfo := netInfo_processReceivedPacket h.done h.short mac stale
  rw [← h.buffer] at hinfo
  by_cases hcount : 0 < s.packetReceived
  · simp only [if_pos hcount] at hinfo
    by_cases hack : Acked (options b) 0
    · have hset : ∀ info, (parse mac b info).1 = acknowledge mac b info := fun info =>
        ((parse_fst mac b info).resolve_right fun hnot => hnot.1 ⟨h.header, hack⟩).2.2
      rw [configures_of_acknowledged fun info => (hinfo info).trans (hset info)]
      simp [hcount, hack]
    · have hkept : ∀ info, (parse mac b info).1 = info := fun info =>
        ((parse_fst mac b info).resolve_left fun hyes => hack hyes.2.1).2
      rw [configures_of_ignored fun info => (hinfo info).trans (hkept info)]
      simp [hack]
  · simp only [if_neg hcount] at hinfo
    rw [configures_of_ignored hinfo]
    simp [hcount]

/-! ### Samples -/

/-- A frame with the header of an answer, and options. -/
def answer (opts : List UInt8) : Buffer := fun i =>
  if i < dhcpOffset + 240 then (headerBytes.lookup i).getD 0 else opts.getD (i - 282) 0

/-- A receiver with one frame of 600 bytes in the ring, and its interrupt counted. -/
def receiverOf (data : Buffer) : Receiver where
  nic := ⟨fun i => ⟨i == 0, 600, data⟩, 0, 0⟩
  packetReceived := 1
  netInfo := .zero

theorem ackFrame_answer {items : List Item} (hvalid : ∀ x ∈ items, x.Valid)
    (hlen : (encode items).length ≤ optionsSize) (hack : Item.opt 53 [5] ∈ items) :
    AckFrame (receiverOf (answer (encode items))) (fun _ => 0)
      (memcpy (fun _ => 0) (answer (encode items)) 600) items where
  done := rfl
  short := by
    show (600 : UInt16).toNat < packetSize
    decide
  buffer := rfl
  long := by
    show 282 + (encode items).length ≤ 600
    simp only [optionsSize] at hlen
    omega
  header := by
    intro x hx
    simp only [headerBytes, List.mem_cons, List.not_mem_nil, or_false] at hx
    rcases hx with rfl | rfl | rfl | rfl | rfl | rfl | rfl | rfl | rfl | rfl | rfl <;> rfl
  valid := hvalid
  fits := hlen
  field := by
    intro i x hx
    obtain ⟨hi, rfl⟩ := List.getElem?_eq_some_iff.mp hx
    have hi' : i < 312 := Nat.lt_of_lt_of_le hi hlen
    simp [options, memcpy, answer, dhcpOffset, show 282 + i < 600 by omega, hi]
  ack := hack

/-- The gateway is the last option. -/
def gatewayLast : List Item := [.opt 53 [5], .opt 3 [192, 168, 1, 1]]

/-- The gateway comes behind a subnet mask, which has bytes 255. -/
def maskFirst : List Item := [.opt 53 [5], .opt 1 [255, 255, 255, 0], .opt 3 [192, 168, 1, 1]]

theorem hit_lt {o : Buffer} {f : Field} {i e : ℕ} (hit : Hit o f 0 i) (he : o e = 255) : i < e := by
  by_contra hle
  exact hit.running e (Nat.zero_le e) (Nat.not_lt.mp hle) he

theorem configures_gatewayLast : ∃ b,
    AckFrame (receiverOf (answer (encode gatewayLast))) (fun _ => 0) b gatewayLast ∧
      Configures (fun _ => 0) (fun _ => 0) (receiverOf (answer (encode gatewayLast)))
        gatewayLast := by
  have hvalid : ∀ x ∈ gatewayLast, x.Valid := by simp [gatewayLast, Item.Valid]
  have hframe := ackFrame_answer hvalid (by decide) (by decide)
  refine ⟨_, hframe, (configures_iff hframe _).mpr (.inl ⟨by decide, ?_, fun f => ?_⟩)⟩
  · exact .here (by decide) (by decide) (by decide) (by decide)
  · generalize hb : options (memcpy _ _ 600) = o
    have hend : o 9 = 255 := by
      rw [← hb]
      decide
    have hno : ∀ i < 9, o i = 1 ∨ o i = 6 → o (i + 1) ≠ 4 := by
      rw [← hb]
      decide
    have hgateway : ∀ i < 9, o i = 3 → i = 3 := by
      rw [← hb]
      decide
    cases f with
    | subnetMask => exact fun j hit => hno j (hit_lt hit hend) (.inl hit.code) hit.length
    | dnsServer => exact fun j hit => hno j (hit_lt hit hend) (.inr hit.code) hit.length
    | gateway =>
      intro _
      refine ⟨3, ⟨⟨Nat.zero_le 3, by decide, ?_, ?_, ?_⟩, fun l hl hit => ?_⟩, ?_⟩
      · rw [← hb]
        intro l _ hl
        interval_cases l <;> decide
      · rw [← hb]
        decide
      · rw [← hb]
        decide
      · exact absurd (hgateway l (hit_lt hit hend) hit.code) (by omega)
      · rw [← hb]
        exact funext (by decide)

/-- The gateway is not set. -/
theorem not_configures_maskFirst : ∃ b,
    AckFrame (receiverOf (answer (encode maskFirst))) (fun _ => 0) b maskFirst ∧
      ¬Configures (fun _ => 0) (fun _ => 0) (receiverOf (answer (encode maskFirst))) maskFirst := by
  refine ⟨_, ackFrame_answer (by simp [maskFirst, Item.Valid]) (by decide) (by decide), ?_⟩
  intro h
  have hf := h .zero .gateway
  have hzero : (processReceivedPacket (fun _ => 0) (fun _ => 0)
      (receiverOf (answer (encode maskFirst)))).netInfo.gateway 0 = 0 := by
    decide
  have hset := congrFun (hf rfl) 0
  exact absurd (hzero.symm.trans hset) (by decide)

end AthenX.Net
