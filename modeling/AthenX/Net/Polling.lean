import AthenX.Net.Packet

/-!
# Two consumers of the ring

A frame is announced by an interrupt, and `e1000_callback` of `drivers/net/e1000/e1000.c` counts it
in `packet_received` and calls `process_received_packet`. `wait_for_receive` calls it in a loop, and
is interrupted anywhere. The interrupt is one step, and the poll takes one for each test, read and
write of `e1000_receive` and of the function.

The counter is lowered only at the end of the function, where no early return arrives, and a frame
that the poll takes before its interrupt is dropped.
-/

namespace AthenX.Net

open List Option

/-! ### The end of the parser -/

/-- From byte `i` on the walk comes to the end of the options, past no message type 2 or 5. -/
inductive Passed (o : Buffer) : ℕ → Prop
  | stop {i : ℕ} : ¬(i < optionsSize ∧ o i ≠ 255) → Passed o i
  | later {i : ℕ} : i < optionsSize → o i ≠ 255 → ¬Typed o i →
      Passed o (i + 2 + (o (i + 1)).toNat) → Passed o i

/-- The packets that get to the end of `process_received_packet`. -/
def Falls (b : Buffer) : Prop := Header b ∧ Passed (options b) 0

theorem walk_eq_ended {o : Buffer} {i : ℕ} (h : Passed o i) (k : ℕ) : walk o k i = .ended := by
  induction h generalizing k with
  | stop hend => exact walk_of_end hend
  | later hi hne ht _ ih =>
    cases k with
    | zero => rfl
    | succ k => rw [walk_succ_of_not_typed ⟨hi, hne⟩ ht, ih k]

theorem parse_of_falls {b : Buffer} (h : Falls b) (mac : Bytes 6) (info : NetInfo) :
    parse mac b info = (info, true) := by
  obtain ⟨htype, hproto, ⟨hdest, hsrc⟩, hcookie⟩ := (header_iff b).mp h.1
  unfold parse
  rw [if_neg (not_not.mpr htype), if_neg (not_not.mpr hproto),
    if_neg (not_or.mpr ⟨not_not.mpr hdest, not_not.mpr hsrc⟩), if_neg (not_not.mpr hcookie),
    walk_eq_ended h.2]

/-! ### The state -/

/-- A frame: its length and its bytes. -/
structure Frame where
  length : UInt16
  data : Buffer

/-- The local buffer after the copy. -/
def Frame.buffer (f : Frame) (stale : Buffer) : Buffer := memcpy stale f.data f.length.toNat

/-- The frame of a valid length in a descriptor. -/
def RxDesc.frame? (d : RxDesc) : Option Frame :=
  if d.done ∧ d.length.toNat < packetSize then some ⟨d.length, d.data⟩ else none

/-- Where the poll is, with `tail` and the frame copied, `none` where `length` is -1. -/
inductive Phase where
  /-- In front of the test of the descriptor. -/
  | test
  /-- In front of the read of the length. -/
  | length (tail : ℕ)
  /-- In front of the copy. -/
  | copy (tail : ℕ) (size : UInt16)
  /-- At `drop`, in front of the write of the status. -/
  | clear (tail : ℕ) (frame : Option Frame)
  /-- In front of the write of `next`. -/
  | bump (tail : ℕ) (frame : Option Frame)
  /-- In front of the write of `E1000_RDT`. -/
  | rdt (tail : ℕ) (frame : Option Frame)
  /-- In front of the two tests of `process_received_packet`. -/
  | check (frame : Option Frame)
  /-- In front of the parser. -/
  | parse (frame : Frame)
  /-- In front of the read of `packet_received`. -/
  | load (frame : Frame)
  /-- The counter has been read, and is to be written. -/
  | store (frame : Frame) (value : Int32)

/-- The receiver, the poll with its local buffer, and what has happened so far. -/
structure System where
  receiver : Receiver
  poll : Option (Buffer × Phase)
  /-- The number of interrupts. -/
  interrupts : ℕ
  /-- The frames of a valid length that were taken from the ring. -/
  removed : List Frame
  /-- The frames that the parser has looked at. -/
  examined : List Frame

/-- The system before the first interrupt. -/
def start (nic : Nic) (info : NetInfo) : System := ⟨⟨nic, 0, info⟩, none, 0, [], []⟩

section

variable (mac : Bytes 6)

/-- One step of the poll. `e1000_receive` writes to the descriptor at `next` of that moment. -/
def System.advance (s : System) (stale : Buffer) : Phase → System
  | .test =>
      if s.receiver.current.done then
        { s with poll := some (stale, .length s.receiver.nic.rdt) }
      else { s with poll := some (stale, .check none) }
  | .length tail =>
      if packetSize ≤ s.receiver.current.length.toNat then
        { s with poll := some (stale, .clear tail none) }
      else { s with poll := some (stale, .copy tail s.receiver.current.length) }
  | .copy tail size =>
      { s with poll := some (stale, .clear tail (some ⟨size, s.receiver.current.data⟩)) }
  | .clear tail frame =>
      { s with
        receiver := { s.receiver with nic := { s.receiver.nic with
          desc := Function.update s.receiver.nic.desc s.receiver.nic.next
            { s.receiver.current with done := false } } }
        poll := some (stale, .bump tail frame)
        removed := s.removed ++ s.receiver.current.frame?.toList }
  | .bump tail frame =>
      { s with
        receiver := { s.receiver with nic := { s.receiver.nic with
          next := (s.receiver.nic.next + 1) % rxSize } }
        poll := some (stale, .rdt tail frame) }
  | .rdt tail frame =>
      { s with
        receiver := { s.receiver with nic := { s.receiver.nic with rdt := (tail + 1) % rxSize } }
        poll := some (stale, .check frame) }
  | .check none => { s with poll := none }
  | .check (some frame) =>
      if s.receiver.packetReceived ≤ 0 then { s with poll := none }
      else { s with poll := some (stale, .parse frame) }
  | .parse frame =>
      let (info, fell) := Net.parse mac (frame.buffer stale) s.receiver.netInfo
      if fell then
        { s with
          receiver := { s.receiver with netInfo := info }
          poll := some (stale, .load frame) }
      else
        { s with
          receiver := { s.receiver with netInfo := info }
          poll := none
          examined := s.examined ++ [frame] }
  | .load frame => { s with poll := some (stale, .store frame s.receiver.packetReceived) }
  | .store frame value =>
      { s with
        receiver := { s.receiver with packetReceived := value - 1 }
        poll := none
        examined := s.examined ++ [frame] }

/-- The receiver after `packet_received++`. -/
def Receiver.announced (r : Receiver) : Receiver := { r with packetReceived := r.packetReceived + 1
  }

/-- `e1000_callback`. -/
def System.interrupt (s : System) (stale : Buffer) : System :=
  { s with
    receiver := processReceivedPacket mac stale s.receiver.announced
    interrupts := s.interrupts + 1
    removed := s.removed ++ s.receiver.current.frame?.toList
    examined := s.examined ++
      if 0 < s.receiver.announced.packetReceived then s.receiver.current.frame?.toList else [] }

/-! ### Runs -/

/-- What may happen. -/
inductive Event where
  /-- The card puts a frame into the descriptor `slot`. -/
  | arrive (slot : ℕ) (frame : Frame)
  /-- An interrupt, where `stale` is what the local buffer of the handler holds. -/
  | interrupt (stale : Buffer)
  /-- `wait_for_receive` calls `process_received_packet`. -/
  | call (stale : Buffer)
  /-- A step of the poll. -/
  | step

/-- An event, where it is possible. The card fills any free descriptor. -/
def System.exec (s : System) : Event → Option System
  | .arrive slot frame =>
      if slot < rxSize ∧ (s.receiver.nic.desc slot).done = false then
        some { s with receiver := { s.receiver with nic := { s.receiver.nic with
          desc := Function.update s.receiver.nic.desc slot ⟨true, frame.length, frame.data⟩ } } }
      else none
  | .interrupt stale => some (s.interrupt mac stale)
  | .call stale => if s.poll.isSome then none else some { s with poll := some (stale, .test) }
  | .step => s.poll.map fun (stale, phase) => s.advance mac stale phase

/-- A sequence of events. -/
def System.run : System → List Event → Option System
  | s, [] => some s
  | s, e :: es => (s.exec mac e).bind fun s' => s'.run es

end

/-! ### The poll by itself -/

/-- Left alone, the poll returns with the receiver `r`. -/
def Returns (mac : Bytes 6) (s : System) (r : Receiver) : Prop :=
  ∃ n s', s.run mac (List.replicate n .step) = some s' ∧ s'.poll = none ∧ s'.receiver = r

section

variable {mac : Bytes 6} {s : System} {r : Receiver} {stale : Buffer} {phase : Phase}

theorem returns_of_idle (h : s.poll = none) : Returns mac s s.receiver := ⟨0, s, rfl, h, rfl⟩

theorem returns_of_advance (hpoll : s.poll = some (stale, phase))
    (h : Returns mac (s.advance mac stale phase) r) : Returns mac s r := by
  obtain ⟨n, s', hrun, hidle, hr⟩ := h
  refine ⟨n + 1, s', ?_, hidle, hr⟩
  simp only [replicate_succ, System.run, System.exec, hpoll]
  exact hrun

theorem returns_parse {frame : Frame} (hpoll : s.poll = some (stale, .parse frame))
    (hr : r = { s.receiver with
      packetReceived := if (parse mac (frame.buffer stale) s.receiver.netInfo).2 then
        s.receiver.packetReceived - 1 else s.receiver.packetReceived
      netInfo := (parse mac (frame.buffer stale) s.receiver.netInfo).1 }) : Returns mac s r := by
  subst hr
  refine returns_of_advance hpoll ?_
  simp only [System.advance]
  split
  · exact returns_of_advance rfl (returns_of_advance rfl (returns_of_idle rfl))
  · exact returns_of_idle rfl

/-- The three writes of `e1000_receive`. -/
theorem returns_clear {tail : ℕ} {frame : Option Frame}
    (hpoll : s.poll = some (stale, .clear tail frame))
    (h : Returns mac
      { s with
        receiver := { s.receiver with nic :=
          { desc := Function.update s.receiver.nic.desc s.receiver.nic.next
              { s.receiver.current with done := false }
            next := (s.receiver.nic.next + 1) % rxSize
            rdt := (tail + 1) % rxSize } }
        poll := some (stale, .check frame)
        removed := s.removed ++ s.receiver.current.frame?.toList } r) : Returns mac s r :=
  returns_of_advance hpoll (returns_of_advance rfl (returns_of_advance rfl h))

/-- **A poll that is not interrupted** does what `process_received_packet` does. -/
theorem returns_processReceivedPacket (mac : Bytes 6) (stale : Buffer) (s : System) :
    Returns mac { s with poll := some (stale, .test) }
      (processReceivedPacket mac stale s.receiver) := by
  have hneg : (-1 : ℤ) < 0 := by decide
  refine returns_of_advance rfl ?_
  simp only [System.advance, processReceivedPacket, e1000Receive, Receiver.current]
  by_cases hdone : (s.receiver.nic.desc s.receiver.nic.next).done = true
  · simp only [hdone, if_true]
    refine returns_of_advance rfl ?_
    simp only [System.advance, Receiver.current]
    by_cases hlong : packetSize ≤ (s.receiver.nic.desc s.receiver.nic.next).length.toNat
    · simp only [hlong]
      exact returns_clear rfl (returns_of_advance rfl (returns_of_idle rfl))
    · simp only [hlong, if_false]
      refine returns_of_advance rfl (returns_clear rfl (returns_of_advance rfl ?_))
      simp only [System.advance]
      by_cases hpr : s.receiver.packetReceived ≤ 0
      · simp only [hpr]
        exact returns_of_idle rfl
      · simp only [hpr]
        exact returns_parse rfl rfl
  · simp only [hdone]
    exact returns_of_advance rfl (returns_of_idle rfl)

end

/-! ### The property and the condition -/

/-- The frame that the poll has taken from the ring and is not done with. -/
def Phase.inHand : Phase → List Frame
  | .bump _ frame => frame.toList
  | .rdt _ frame => frame.toList
  | .check frame => frame.toList
  | .parse frame => [frame]
  | .load frame => [frame]
  | .store frame _ => [frame]
  | _ => []

/-- The frame in hand. -/
def System.inHand (s : System) : List Frame := s.poll.elim [] fun x => x.2.inHand

/-- Every frame taken is examined or in hand, once, and the counter is the interrupts less the
frames examined. -/
def Balanced (s : System) : Prop :=
  s.removed.Perm (s.examined ++ s.inHand) ∧
    s.receiver.packetReceived.toInt = s.interrupts - s.examined.length

/-- Has `e1000_receive` seen a frame, and not given its descriptor back? -/
def Phase.receiving : Phase → Bool
  | .length _ => true
  | .copy _ _ => true
  | .clear _ _ => true
  | _ => false

/-- Has the counter been read for `packet_received--`, and not written? -/
def Phase.storing : Phase → Bool
  | .store _ _ => true
  | _ => false

/-- The steps that keep the balance: no interrupt between the test of a descriptor and the write of
its status, in the update of the counter with an empty ring, or with the counter at its greatest
value; frames are answers without a message type 2 or 5, and are tested while the counter is
positive. -/
def Gentle (s : System) : Event → Prop
  | .arrive _ _ => True
  | .interrupt stale =>
      (∀ x ∈ s.poll, x.2.receiving = false) ∧
        (∀ x ∈ s.poll, x.2.storing = true → s.receiver.current.frame? ≠ none) ∧
        s.receiver.packetReceived < Int32.maxValue ∧
        ∀ f ∈ s.receiver.current.frame?, Falls (f.buffer stale)
  | .call _ => True
  | .step =>
      ∀ stale f, s.poll = some (stale, .check (some f)) →
        0 < s.receiver.packetReceived ∧ Falls (f.buffer stale)

/-- All steps of a run are gentle. -/
def AllGentle (mac : Bytes 6) : System → List Event → Prop
  | _, [] => True
  | s, e :: es => Gentle s e ∧ ∀ s' ∈ s.exec mac e, AllGentle mac s' es

/-! ### The interrupt -/

section

variable {r : Receiver}

theorem toInt_add_one {x : Int32} (h : x < Int32.maxValue) : (x + 1).toInt = x.toInt + 1 := by
  have hlt := Int32.lt_iff_toInt_lt.mp h
  have hge := x.le_toInt
  rw [Int32.toInt_add]
  exact Int.bmod_eq_of_le (by simp at hge ⊢; omega) (by simp [Int32.toInt_maxValue] at hlt ⊢; omega)

theorem toInt_sub_one {x : Int32} (h : 0 < x) : (x - 1).toInt = x.toInt - 1 := by
  have hlt := Int32.lt_iff_toInt_lt.mp h
  have hle := x.toInt_lt
  rw [Int32.toInt_sub]
  exact Int.bmod_eq_of_le (by simp at hlt ⊢; omega) (by simp at hle ⊢; omega)

theorem frame?_eq_some_iff {d : RxDesc} {f : Frame} : d.frame? = some f ↔
    (d.done = true ∧ d.length.toNat < packetSize) ∧ ⟨d.length, d.data⟩ = f := by
  unfold RxDesc.frame?
  split
  · next h => simp [h]
  · next h => simp [h]

theorem packetReceived_of_frame?_eq_none (h : r.current.frame? = none) (mac : Bytes 6)
    (stale : Buffer) : (processReceivedPacket mac stale r).packetReceived = r.packetReceived := by
  have hnot : ¬(r.current.done = true ∧ r.current.length.toNat < packetSize) := fun hand => by
    rw [frame?_eq_some_iff.mpr ⟨hand, rfl⟩] at h
    cases h
  have hlen : (e1000Receive r.nic stale).2.1 < 0 := by
    rw [e1000Receive_length hnot]
    decide
  simp [processReceivedPacket, if_pos hlen]

theorem packetReceived_of_falls {f : Frame} (h : r.current.frame? = some f)
    (hpos : 0 < r.packetReceived) {stale : Buffer} (hf : Falls (f.buffer stale)) (mac : Bytes 6) :
    (processReceivedPacket mac stale r).packetReceived = r.packetReceived - 1 := by
  obtain ⟨⟨hdone, hshort⟩, rfl⟩ := frame?_eq_some_iff.mp h
  have hrecv := e1000Receive_snd hdone hshort stale
  have hparse := parse_of_falls hf mac r.netInfo
  simp only [Frame.buffer] at hparse
  simp only [processReceivedPacket, hrecv]
  rw [if_neg (by omega), if_neg (Int32.not_le.mpr hpos), hparse]
  rfl

theorem packetReceived_announced {stale : Buffer} (hnonneg : 0 ≤ r.packetReceived.toInt)
    (hmax : r.packetReceived < Int32.maxValue)
    (hf : ∀ f ∈ r.current.frame?, Falls (f.buffer stale)) (mac : Bytes 6) :
    0 < r.announced.packetReceived ∧
      (processReceivedPacket mac stale r.announced).packetReceived.toInt =
        r.packetReceived.toInt + 1 - r.current.frame?.toList.length := by
  have hcur : r.announced.current = r.current := rfl
  have hone : r.announced.packetReceived.toInt = r.packetReceived.toInt + 1 := toInt_add_one hmax
  have hpos : 0 < r.announced.packetReceived := by
    rw [Int32.lt_iff_toInt_lt, hone, Int32.toInt_zero]
    omega
  refine ⟨hpos, ?_⟩
  cases h : r.current.frame? with
  | none =>
    rw [packetReceived_of_frame?_eq_none (hcur ▸ h), hone]
    exact (Int.sub_zero _).symm
  | some f =>
    rw [packetReceived_of_falls (hcur ▸ h) hpos (hf f h) mac, toInt_sub_one hpos, hone]
    rfl

end

/-! ### The invariant -/

/-- What is known of the receiver at a phase of a gentle run. -/
def Phase.Fits (stale : Buffer) (r : Receiver) : Phase → Prop
  | .length _ => r.current.done = true
  | .copy _ size => r.current.done = true ∧ size.toNat < packetSize ∧ r.current.length = size
  | .clear _ frame => r.current.done = true ∧ r.current.frame? = frame
  | .parse frame => 0 < r.packetReceived.toInt ∧ Falls (frame.buffer stale)
  | .load _ => 0 < r.packetReceived.toInt
  | .store _ value => 0 < r.packetReceived.toInt ∧ value = r.packetReceived
  | _ => True

/-- The invariant of the gentle runs. -/
structure Steady (s : System) : Prop where
  balanced : Balanced s
  nonneg : 0 ≤ s.receiver.packetReceived.toInt
  phase : ∀ x ∈ s.poll, x.2.Fits x.1 s.receiver

section

variable {s s' : System} {mac : Bytes 6} {stale : Buffer}

theorem Steady.arrive (h : Steady s) {slot : ℕ} {frame : Frame}
    (hs : s.exec mac (.arrive slot frame) = some s') : Steady s' := by
  simp only [System.exec] at hs
  split at hs
  · next hfree =>
    cases hs
    refine ⟨h.balanced, h.nonneg, fun x hx => ?_⟩
    have hold := h.phase x hx
    have hcur : s.receiver.current.done = true → Function.update s.receiver.nic.desc slot
        ⟨true, frame.length, frame.data⟩ s.receiver.nic.next = s.receiver.current := by
      intro hdone
      refine Function.update_of_ne (fun heq => ?_) _ _
      rw [Receiver.current, heq, hfree.2] at hdone
      cases hdone
    obtain ⟨stale, phase⟩ := x
    cases phase with
    | length tail =>
      simp only [Phase.Fits, Receiver.current] at hold ⊢
      rw [hcur hold]
      exact hold
    | copy tail size =>
      simp only [Phase.Fits, Receiver.current] at hold ⊢
      rw [hcur hold.1]
      exact hold
    | clear tail frame =>
      simp only [Phase.Fits, Receiver.current] at hold ⊢
      rw [hcur hold.1]
      exact hold
    | _ => exact hold
  · cases hs

theorem Steady.interrupt (h : Steady s) (hg : Gentle s (.interrupt stale)) :
    Steady (s.interrupt mac stale) := by
  obtain ⟨hreceiving, hstoring, hmax, hfalls⟩ := hg
  obtain ⟨hperm, hcount⟩ := h.balanced
  have hnonneg := h.nonneg
  obtain ⟨hpos, hpr⟩ := packetReceived_announced hnonneg hmax hfalls mac
  have hle : s.receiver.current.frame?.toList.length ≤ 1 := by
    cases s.receiver.current.frame? <;> simp
  refine ⟨⟨?_, ?_⟩, ?_, fun x hx => ?_⟩
  · simp only [System.interrupt, if_pos hpos]
    calc List.Perm (s.removed ++ s.receiver.current.frame?.toList)
          (s.examined ++ s.inHand ++ s.receiver.current.frame?.toList) := hperm.append_right _
      List.Perm _ (s.examined ++ s.receiver.current.frame?.toList ++ s.inHand) := by
          rw [append_assoc, append_assoc]
          exact perm_append_comm.append_left _
  · simp only [System.interrupt, if_pos hpos, length_append]
    omega
  · simp only [System.interrupt]
    omega
  · have hold := h.phase x hx
    have hrec := hreceiving x hx
    obtain ⟨stale', phase⟩ := x
    cases phase with
    | length tail => cases hrec
    | copy tail size => cases hrec
    | clear tail frame => cases hrec
    | parse frame =>
      simp only [Phase.Fits, System.interrupt] at hold ⊢
      exact ⟨by omega, hold.2⟩
    | load frame =>
      simp only [Phase.Fits, System.interrupt] at hold ⊢
      omega
    | store frame value =>
      -- the handler sees a frame, and leaves the counter as it was
      have hsome : s.receiver.current.frame?.toList.length = 1 := by
        cases hframe : s.receiver.current.frame? with
        | none => exact absurd hframe (hstoring _ hx rfl)
        | some f => rfl
      simp only [Phase.Fits, System.interrupt] at hold ⊢
      exact ⟨by omega, hold.2.trans (Int32.toInt_inj.mp (by omega))⟩
    | _ => trivial

theorem Steady.advance (h : Steady s) {phase : Phase} (hpoll : s.poll = some (stale, phase))
    (hg : Gentle s .step) : Steady (s.advance mac stale phase) := by
  obtain ⟨hperm, hcount⟩ := h.balanced
  have hnonneg := h.nonneg
  have hfits : phase.Fits stale s.receiver := h.phase _ hpoll
  have hhand : s.inHand = phase.inHand := by rw [System.inHand, hpoll]; rfl
  rw [hhand] at hperm
  cases phase with
  | test =>
    simp only [System.advance]
    split
    · next hdone => exact ⟨⟨hperm, hcount⟩, hnonneg, fun x hx => some.inj hx ▸ hdone⟩
    · exact ⟨⟨hperm, hcount⟩, hnonneg, fun x hx => some.inj hx ▸ trivial⟩
  | length tail =>
    simp only [System.advance]
    split
    · next hlong =>
      have hnone : s.receiver.current.frame? = none := if_neg fun hand => by omega
      exact ⟨⟨hperm, hcount⟩, hnonneg, fun x hx => some.inj hx ▸ ⟨hfits, hnone⟩⟩
    · next hshort =>
      exact ⟨⟨hperm, hcount⟩, hnonneg, fun x hx => some.inj hx ▸ ⟨hfits, Nat.not_le.mp hshort, rfl⟩⟩
  | copy tail size =>
    obtain ⟨hdone, hshort, rfl⟩ := hfits
    exact ⟨⟨hperm, hcount⟩, hnonneg,
      fun x hx => some.inj hx ▸ ⟨hdone, frame?_eq_some_iff.mpr ⟨⟨hdone, hshort⟩, rfl⟩⟩⟩
  | clear tail frame =>
    obtain ⟨hdone, rfl⟩ := hfits
    refine ⟨⟨?_, hcount⟩, hnonneg, fun x hx => some.inj hx ▸ trivial⟩
    simp only [Phase.inHand, append_nil] at hperm
    exact hperm.append_right _
  | bump tail frame | rdt tail frame =>
    exact ⟨⟨hperm, hcount⟩, hnonneg, fun x hx => some.inj hx ▸ trivial⟩
  | check frame =>
    cases frame with
    | none => exact ⟨⟨hperm, hcount⟩, hnonneg, fun x hx => nomatch hx⟩
    | some frame =>
      obtain ⟨hpos, hfalls⟩ := hg stale frame hpoll
      simp only [System.advance]
      rw [if_neg (Int32.not_le.mpr hpos)]
      have hpos := Int32.lt_iff_toInt_lt.mp hpos
      exact ⟨⟨hperm, hcount⟩, hnonneg, fun x hx => some.inj hx ▸ ⟨hpos, hfalls⟩⟩
  | parse frame =>
    obtain ⟨hpos, hfalls⟩ := hfits
    simp only [System.advance, parse_of_falls hfalls]
    exact ⟨⟨hperm, hcount⟩, hnonneg, fun x hx => some.inj hx ▸ hpos⟩
  | load frame =>
    exact ⟨⟨hperm, hcount⟩, hnonneg, fun x hx => some.inj hx ▸ ⟨hfits, rfl⟩⟩
  | store frame value =>
    obtain ⟨hpos, rfl⟩ := hfits
    have hless := toInt_sub_one (Int32.lt_iff_toInt_lt.mpr hpos)
    refine ⟨⟨?_, ?_⟩, ?_, fun x hx => nomatch hx⟩
    · simp only [System.advance, System.inHand, Option.elim, append_nil]
      exact hperm
    · simp only [System.advance, length_append, length_singleton]
      omega
    · simp only [System.advance]
      omega

/-- **A gentle step** keeps the invariant. -/
theorem Steady.exec (h : Steady s) {e : Event} (hg : Gentle s e) (hs : s.exec mac e = some s') :
    Steady s' := by
  cases e with
  | arrive slot frame => exact h.arrive hs
  | interrupt stale =>
    cases hs
    exact h.interrupt hg
  | call stale =>
    simp only [System.exec] at hs
    split at hs
    · cases hs
    · next hidle =>
      cases hs
      have hnone : s.poll = none := by simpa using hidle
      refine ⟨⟨?_, h.balanced.2⟩, h.nonneg, fun x hx => some.inj hx ▸ trivial⟩
      have hperm := h.balanced.1
      rwa [System.inHand, hnone] at hperm
  | step =>
    obtain ⟨⟨stale, phase⟩, hpoll, rfl⟩ := map_eq_some_iff.mp hs
    exact h.advance hpoll hg

theorem Steady.run (h : Steady s) {es : List Event} (hg : AllGentle mac s es)
    (hs : s.run mac es = some s') : Steady s' := by
  induction es generalizing s with
  | nil =>
    cases hs
    exact h
  | cons e es ih =>
    obtain ⟨t, ht, hs⟩ := bind_eq_some_iff.mp hs
    exact ih (h.exec hg.1 ht) (hg.2 t ht) hs

end

/-- **In a run of gentle steps the ring and the counter agree.** -/
theorem balanced_of_gentle (mac : Bytes 6) (nic : Nic) (info : NetInfo) (es : List Event)
    (s : System) (hs : (start nic info).run mac es = some s)
    (hg : AllGentle mac (start nic info) es) : Balanced s :=
  (Steady.run (s := start nic info) ⟨⟨List.Perm.refl [], rfl⟩, Int.le_refl 0, nofun⟩ hg hs).balanced

/-! ### Samples -/

/-- An empty ring. -/
def emptyNic : Nic := ⟨fun _ => ⟨false, 0, fun _ => 0⟩, 0, 0⟩

/-- `n` zero bytes. -/
def zeros {n : ℕ} : Bytes n := fun _ => 0

/-- No configuration. -/
def noInfo : NetInfo := ⟨zeros, zeros, zeros, zeros, zeros, zeros⟩

/-- An answer of a DHCP server without options. -/
def bareAnswer : Frame :=
  ⟨283, fun i => if i = 282 then 255 else (headerBytes.lookup i).getD 0⟩

/-- A frame that is not an IP packet. -/
def notIp : Frame := ⟨60, fun _ => 0⟩

/-- A frame arrives, and is announced. -/
def announce (f : Frame) : List Event := [.arrive 0 f, .interrupt fun _ => 0]

theorem balanced_announce_bareAnswer :
    ∃ s, (start emptyNic noInfo).run zeros (announce bareAnswer) = some s ∧
      AllGentle zeros (start emptyNic noInfo) (announce bareAnswer) ∧ s.examined.length = 1 ∧
      Balanced s := by
  have hgentle : AllGentle zeros (start emptyNic noInfo) (announce bareAnswer) := by
    refine ⟨trivial, fun s hs => ?_⟩
    cases hs
    refine ⟨⟨fun x hx => (nomatch hx), fun x hx => (nomatch hx), by decide, fun f hf => ?_⟩,
      fun _ _ => trivial⟩
    cases hf
    exact ⟨by unfold Header; decide, .stop (by decide)⟩
  exact ⟨_, rfl, hgentle, rfl, balanced_of_gentle zeros emptyNic noInfo _ _ rfl hgentle⟩

/-- The poll drops a frame that it comes to first, and counts none that is not an IP packet. -/
theorem not_balanced_samples :
    (∃ s, (start emptyNic noInfo).run zeros
        (.arrive 0 bareAnswer :: .call (fun _ => 0) :: List.replicate 7 .step) = some s ∧
      ¬Balanced s) ∧
    ∃ s, (start emptyNic noInfo).run zeros (announce notIp) = some s ∧ ¬Balanced s := by
  refine ⟨⟨_, rfl, fun h => ?_⟩, ⟨_, rfl, fun h => ?_⟩⟩
  · have hlen := h.1.length_eq
    exact absurd hlen (by decide)
  · have hcount := h.2
    exact absurd hcount (by decide)

end AthenX.Net
