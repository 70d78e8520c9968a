import AthenX.Net.Checksum

/-!
# The request for an address

`create_dhcp_discover` of `drivers/net/stack/dhcp.c` lays out four headers and then the options.
Neither the lengths in the headers nor the size that is returned count the options.
-/

namespace AthenX.Net

/-! ### The source -/

/-- Bytes that are stored at an offset of the buffer. -/
def store (p : ℕ → UInt8) (off : ℕ) (bs : List UInt8) : ℕ → UInt8 := fun k =>
  if off ≤ k ∧ k < off + bs.length then bs.getD (k - off) 0 else p k

def memset (p : ℕ → UInt8) (off : ℕ) (v : UInt8) (n : ℕ) : ℕ → UInt8 := fun k =>
  if off ≤ k ∧ k < off + n then v else p k

/-- The bytes of a number in network order: what `htons` and `htonl` are for. -/
def network (n : ℕ) : ℕ → List UInt8
  | 0 => []
  | k + 1 => UInt8.ofNat (n / 256 ^ k) :: network n k

/-- A word of the buffer, as the processor reads it. -/
def wordAt (p : ℕ → UInt8) (k : ℕ) : UInt16 := UInt16.ofNat ((p k).toNat + 256 * (p (k + 1)).toNat)

def wordBytes (w : UInt16) : List UInt8 := [UInt8.ofNat w.toNat, UInt8.ofNat (w.toNat / 256)]

/-- The words of the IP header. -/
def ipWords (p : ℕ → UInt8) : List UInt16 := (List.range 10).map fun k => wordAt p (14 + 2 * k)

/-- `DHCP_HEADER_SIZE`, with the sizes of the other headers below. -/
def dhcpHeaderSize : ℕ := 240

def ipHeaderSize : ℕ := 20

def udpHeaderSize : ℕ := 8

def ethernetHeaderSize : ℕ := 14

def macBytes (mac : Fin 6 → UInt8) : List UInt8 := [mac 0, mac 1, mac 2, mac 3, mac 4, mac 5]

/-- The first two headers, without the checksum. -/
def startFrame (packet : ℕ → UInt8) (mac : Fin 6 → UInt8) : ℕ → UInt8 :=
  let p := memset packet 0 0xFF 6
  let p := store p 6 (macBytes mac)
  let p := store p 12 (network 0x0800 2)
  let p := store p 14 [0x45, 0]
  let p := store p 16 (network (ipHeaderSize + udpHeaderSize + dhcpHeaderSize) 2)
  let p := store p 18 [0, 0, 0, 0, 64, 17, 0, 0]
  let p := memset p 26 0 4
  memset p 30 0xFF 4

/-- `create_dhcp_discover`: the buffer and the size of the packet. -/
def createDhcpDiscover (packet : ℕ → UInt8) (mac : Fin 6 → UInt8) : (ℕ → UInt8) × ℕ :=
  let p := startFrame packet mac
  let p := store p 24 (wordBytes (calculateChecksum (ipWords p)))
  let p := store p 34 (network 68 2)
  let p := store p 36 (network 67 2)
  let p := store p 38 (network (udpHeaderSize + dhcpHeaderSize) 2)
  let p := store p 40 [0, 0]
  let p := store p 42 [1, 1, 6, 0]
  let p := store p 46 (network 0x12345678 4)
  let p := store p 50 [0, 0]
  let p := store p 52 (network 0x8000 2)
  -- `ciaddr`, `yiaddr`, `siaddr` and `giaddr`
  let p := memset (memset (memset (memset p 54 0 4) 58 0 4) 62 0 4) 66 0 4
  let p := store p 70 (macBytes mac)
  let p := memset p 76 0 10
  let p := memset p 86 0 64
  let p := memset p 150 0 128
  let p := store p 278 (network 0x63825363 4)
  let p := store p 282 [53, 1, 1, 255]
  (p, ethernetHeaderSize + ipHeaderSize + udpHeaderSize + dhcpHeaderSize)

/-! ### The frame -/

/-- The number in two bytes of the frame. -/
def netWord (p : ℕ → UInt8) (k : ℕ) : ℕ := 256 * (p k).toNat + (p (k + 1)).toNat

/-- The headers agree with each other and with the size. -/
structure Headers (p : ℕ → UInt8) (size : ℕ) : Prop where
  checksum : calculateChecksum (ipWords p) = 0
  ipLength : 14 + netWord p 16 = size
  udpLength : 34 + netWord p 38 = size

/-- Options up to the one that ends them, with the message type 1 among them. -/
def Discovers (options : List UInt8) : Prop :=
  ∃ items : List (UInt8 × List UInt8), ∃ rest, (53, [1]) ∈ items ∧
    options = items.flatMap (fun x => x.1 :: UInt8.ofNat x.2.length :: x.2) ++ 255 :: rest

/-- The first bytes of the buffer are one frame. -/
def Consistent (p : ℕ → UInt8) (size : ℕ) : Prop :=
  Headers p size ∧ Discovers ((List.range (size - 282)).map fun k => p (282 + k))

theorem not_consistent (p : ℕ → UInt8) : ¬ Consistent p 282 := by
  rintro ⟨-, items, rest, -, h⟩
  exact List.append_ne_nil_of_right_ne_nil _ (List.cons_ne_nil 255 rest) h.symm

theorem wordAt_wordBytes (w : UInt16) :
    UInt16.ofNat ((UInt8.ofNat w.toNat).toNat + 256 * (UInt8.ofNat (w.toNat / 256)).toNat) = w := by
  have hlt := w.toNat_lt
  rw [← UInt16.toNat_inj, UInt16.toNat_ofNat', UInt8.toNat_ofNat', UInt8.toNat_ofNat']
  omega

theorem headers_createDhcpDiscover (packet : ℕ → UInt8) (mac : Fin 6 → UInt8) :
    Headers (createDhcpDiscover packet mac).1 282 := by
  have hip : netWord (createDhcpDiscover packet mac).1 16 = 268 := rfl
  have hudp : netWord (createDhcpDiscover packet mac).1 38 = 248 := rfl
  refine ⟨?_, by rw [hip], by rw [hudp]⟩
  -- the words of the frame are those the checksum was taken of, with the checksum among them
  have hwords : ipWords (createDhcpDiscover packet mac).1 = (ipWords (startFrame packet mac)).set 5
      (calculateChecksum (ipWords (startFrame packet mac))) := by
    rw [← wordAt_wordBytes (calculateChecksum (ipWords (startFrame packet mac)))]
    rfl
  rw [hwords]
  exact calculateChecksum_set (by rw [ipWords, List.length_map]; decide) rfl

/-- **The frame of a request**: its headers agree, and none of the options is inside it. -/
theorem createDhcpDiscover_spec (packet : ℕ → UInt8) (mac : Fin 6 → UInt8) :
    Headers (createDhcpDiscover packet mac).1 (createDhcpDiscover packet mac).2 ∧
      ¬ Consistent (createDhcpDiscover packet mac).1 (createDhcpDiscover packet mac).2 :=
  ⟨headers_createDhcpDiscover packet mac, not_consistent _⟩

theorem not_consistent_zero :
    ¬ Consistent (createDhcpDiscover (fun _ => 0) fun _ => 0).1
      (createDhcpDiscover (fun _ => 0) fun _ => 0).2 :=
  not_consistent _

end AthenX.Net
