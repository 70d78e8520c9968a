import Mathlib

/-!
# Decoding a function

The loop of `print_stack_frame` of `kernel/debug/decode.c`: the addresses it decodes at, the
lengths, and the targets of calls and jumps that it prints.

For an instruction that is not known the length is 0, and the loop stays where it is. No function
knows the byte with scale, index and base, `movl` to a register leaves out the immediate value, and
the offset of `jmp` is read without its sign.
-/

namespace AthenX.Decode

open Option

/-! ### The source -/

/-- The fields of the byte behind the opcode. -/
def modOf (modrm : UInt8) : ℕ := modrm.toNat / 64

def regOf (modrm : UInt8) : ℕ := modrm.toNat / 8 % 8

def rmOf (modrm : UInt8) : ℕ := modrm.toNat % 8

/-- `decode_modrm_address`. -/
def decodeModrmAddress (mod rm : ℕ) : ℕ :=
  if mod = 0 then if rm = 5 then 6 else 2 else if mod = 1 then 3 else if mod = 2 then 6 else 2

/-- `disassemble_mov`. -/
def disassembleMov (modrm : UInt8) : ℕ :=
  if modOf modrm = 0 ∧ rmOf modrm ≠ 5 then 0 else decodeModrmAddress (modOf modrm) (rmOf modrm)

/-- `disassemble_alu`. -/
def disassembleAlu (modrm : UInt8) : ℕ :=
  if regOf modrm = 0 ∨ regOf modrm = 5 ∨ regOf modrm = 7 then
    if modOf modrm = 3 then 3 else if modOf modrm = 1 then 4 else 0
  else 0

/-- `disassemble_movl`. -/
def disassembleMovl (modrm : UInt8) : ℕ :=
  if regOf modrm = 0 then
    if modOf modrm = 0 then if rmOf modrm = 5 then 10 else 6
    else if modOf modrm = 1 then 7
    else if modOf modrm = 2 then 10 else 2
  else 0

/-- `disassemble_push`. -/
def disassemblePush (opcode modrm : UInt8) : ℕ :=
  if opcode = 0xFF then
    if regOf modrm = 6 then
      if modOf modrm = 0 then if rmOf modrm = 5 then 6 else 2
      else if modOf modrm = 1 then 3
      else if modOf modrm = 2 then 6 else 2
    else 0
  else if 0x50 ≤ opcode ∧ opcode ≤ 0x57 then 1
  else if opcode = 0x68 then 5
  else if opcode = 0x6A then 2 else 0

/-- `instruction_length` in an iteration that does not end the loop. -/
def instructionLength (opcode modrm : UInt8) : ℕ :=
  if opcode = 0x55 then 1
  else if opcode = 0x89 then disassembleMov modrm
  else if opcode = 0x83 then disassembleAlu modrm
  else if opcode = 0x68 then disassemblePush opcode modrm
  else if opcode = 0x6A then 2
  else if opcode = 0xE8 then 5
  else if opcode = 0x75 then 2
  else if 0xB8 ≤ opcode ∧ opcode ≤ 0xBF then 5
  else if opcode = 0xEB then 2
  else if opcode = 0xFF ∨ 0x50 ≤ opcode ∧ opcode ≤ 0x57 then disassemblePush opcode modrm
  else if opcode = 0xC7 then disassembleMovl modrm
  else 1

/-- Four bytes, the lowest one first. -/
def word (m : ℕ → UInt8) (a : ℕ) : UInt32 :=
  (m a).toUInt32 ||| (m (a + 1)).toUInt32 <<< 8 ||| (m (a + 2)).toUInt32 <<< 16 |||
    (m (a + 3)).toUInt32 <<< 24

/-- A byte with its sign. -/
def signed (b : UInt8) : UInt32 := b.toInt8.toInt32.toUInt32

/-- The target that `disassemble_call`, `disassemble_jne` or `disassemble_jmp` prints. -/
def shownTarget (m : ℕ → UInt8) (a : ℕ) : Option UInt32 :=
  if m a = 0xE8 then some (UInt32.ofNat a + 5 + word m (a + 1))
  else if m a = 0x75 then some (UInt32.ofNat a + 2 + signed (m (a + 1)))
  else if m a = 0xEB then some (UInt32.ofNat a + 2 + (m (a + 1)).toUInt32)
  else none

def next (m : ℕ → UInt8) (a : ℕ) : ℕ := a + instructionLength (m a) (m (a + 1))

/-- The loop of `print_stack_frame`: the addresses and the targets. -/
def printStackFrame (m : ℕ → UInt8) : ℕ → ℕ → Option (List (ℕ × Option UInt32))
  | 0, _ => none
  | k + 1, a =>
      if m a = 0xC3 then some [(a, none)]
      else (printStackFrame m k (next m a)).map ((a, shownTarget m a) :: ·)

/-! ### Progress -/

/-- The addresses at which the loop decodes. -/
inductive Visited (m : ℕ → UInt8) (base : ℕ) : ℕ → Prop
  | base : Visited m base base
  | next {a : ℕ} : Visited m base a → m a ≠ 0xC3 → Visited m base (next m a)

/-- An instruction that none of the functions knows. -/
def Stuck (opcode modrm : UInt8) : Prop :=
  opcode = 0x89 ∧ modOf modrm = 0 ∧ rmOf modrm ≠ 5 ∨
  opcode = 0x83 ∧ (regOf modrm ≠ 0 ∧ regOf modrm ≠ 5 ∧ regOf modrm ≠ 7 ∨
    modOf modrm = 0 ∨ modOf modrm = 2) ∨
  opcode = 0xFF ∧ regOf modrm ≠ 6 ∨ opcode = 0xC7 ∧ regOf modrm ≠ 0

/-- Each turn moves the cursor, and a run that comes to a return ends. -/
def Progresses (m : ℕ → UInt8) (base : ℕ) : Prop :=
  (∀ a, Visited m base a → m a ≠ 0xC3 → a < next m a) ∧
    ((∃ a, Visited m base a ∧ m a = 0xC3) → ∃ k, (printStackFrame m k base).isSome)

theorem modOf_lt (modrm : UInt8) : modOf modrm < 4 := Nat.div_lt_of_lt_mul modrm.toNat_lt

theorem instructionLength_eq_zero_iff (opcode modrm : UInt8) :
    instructionLength opcode modrm = 0 ↔ Stuck opcode modrm := by
  have hmod := modOf_lt modrm
  unfold Stuck
  by_cases h89 : opcode = 0x89
  · subst h89
    simp [instructionLength, disassembleMov, decodeModrmAddress]
    grind
  by_cases h83 : opcode = 0x83
  · subst h83
    simp [instructionLength, disassembleAlu]
    grind
  by_cases hFF : opcode = 0xFF
  · subst hFF
    simp [instructionLength, disassemblePush]
    grind
  by_cases hC7 : opcode = 0xC7
  · subst hC7
    simp [instructionLength, disassembleMovl]
    grind
  simp only [instructionLength, disassemblePush, hC7]
  grind

section

variable {m : ℕ → UInt8} {base a : ℕ}

theorem lt_next_iff : a < next m a ↔ ¬Stuck (m a) (m (a + 1)) := by
  rw [← instructionLength_eq_zero_iff, next]
  omega

theorem isSome_of_visited (h : Visited m base a) {k : ℕ} (hk : (printStackFrame m k a).isSome) :
    ∃ k, (printStackFrame m k base).isSome := by
  induction h generalizing k with
  | base => exact ⟨k, hk⟩
  | next h hret ih =>
    refine ih (k := k + 1) ?_
    rw [printStackFrame, if_neg hret, isSome_map]
    exact hk

/-- **Every turn makes progress** if and only if the loop gets stuck at no instruction. -/
theorem progresses_iff : Progresses m base ↔ ∀ a, Visited m base a → ¬Stuck (m a) (m (a + 1)) := by
  constructor
  · intro h a ha hstuck
    refine lt_next_iff.mp (h.1 a ha fun hret => ?_) hstuck
    rw [hret] at hstuck
    exact absurd hstuck (by simp [Stuck])
  · intro h
    refine ⟨fun a ha _ => lt_next_iff.mpr (h a ha), fun ⟨a, ha, hret⟩ => ?_⟩
    exact isSome_of_visited ha (k := 1) (by rw [printStackFrame, if_pos hret]; rfl)

end

/-- The bytes of `mov %eax, (%eax)`. -/
theorem not_progresses_mov : ¬Progresses (fun k => if k = 0 then 0x89 else 0) 0 :=
  fun h => lt_next_iff.mp (h.1 0 .base (by decide)) (.inl (by decide))

/-! ### Instruction boundaries -/

/-- The bytes of scale, index and base and of the displacement of an operand. -/
def operandLength (mod rm : ℕ) (sib : UInt8) : ℕ :=
  if mod = 3 then 0
  else
    (if rm = 4 then 1 else 0) +
      (if mod = 1 then 1 else if mod = 2 then 4
        else if rm = 5 ∨ rm = 4 ∧ rmOf sib = 5 then 4 else 0)

/-- The length of an instruction, by its first three bytes. -/
def trueLength (opcode modrm sib : UInt8) : Option ℕ :=
  let operand := operandLength (modOf modrm) (rmOf modrm) sib
  if opcode = 0x89 then some (2 + operand)
  else if opcode = 0x83 then
    if regOf modrm = 0 ∨ regOf modrm = 5 ∨ regOf modrm = 7 then some (3 + operand) else none
  else if opcode = 0xC7 then if regOf modrm = 0 then some (6 + operand) else none
  else if opcode = 0xFF then if regOf modrm = 6 then some (2 + operand) else none
  else if 0x50 ≤ opcode ∧ opcode ≤ 0x57 then some 1
  else if opcode = 0x68 ∨ opcode = 0xE8 ∨ 0xB8 ≤ opcode ∧ opcode ≤ 0xBF then some 5
  else if opcode = 0x6A ∨ opcode = 0x75 ∨ opcode = 0xEB then some 2
  else none

/-- From an address on there are instructions of these lengths, and a return. -/
def Stream (m : ℕ → UInt8) : ℕ → List ℕ → Prop
  | a, [] => m a = 0xC3
  | a, n :: ns => trueLength (m a) (m (a + 1)) (m (a + 2)) = some n ∧ Stream m (a + n) ns

/-- The target of a call or a jump. -/
def trueTarget (m : ℕ → UInt8) (a : ℕ) : Option UInt32 :=
  if m a = 0xE8 then some (UInt32.ofNat a + 5 + word m (a + 1))
  else if m a = 0x75 ∨ m a = 0xEB then some (UInt32.ofNat a + 2 + signed (m (a + 1)))
  else none

def listing (m : ℕ → UInt8) : ℕ → List ℕ → List (ℕ × Option UInt32)
  | a, [] => [(a, none)]
  | a, n :: ns => (a, trueTarget m a) :: listing m (a + n) ns

/-- The addresses of the instructions. -/
def starts : ℕ → List ℕ → List ℕ
  | _, [] => []
  | a, n :: ns => a :: starts (a + n) ns

/-- The instructions that are decoded as they are. -/
def Handled (opcode modrm : UInt8) : Prop :=
  (opcode = 0x89 → modOf modrm ≠ 0 ∨ rmOf modrm = 5) ∧
  (opcode = 0x83 → modOf modrm = 1 ∨ modOf modrm = 3) ∧
  (opcode = 0xC7 → modOf modrm ≠ 3) ∧
  (opcode = 0x89 ∨ opcode = 0x83 ∨ opcode = 0xC7 ∨ opcode = 0xFF →
    modOf modrm = 3 ∨ rmOf modrm ≠ 4) ∧
  (opcode = 0xEB → modrm < 0x80)

theorem handled_iff {opcode modrm sib : UInt8} {n : ℕ} (h : trueLength opcode modrm sib = some n) :
    Handled opcode modrm ↔
      instructionLength opcode modrm = n ∧ (opcode = 0xEB → modrm < 0x80) := by
  have hmod := modOf_lt modrm
  unfold Handled
  by_cases h89 : opcode = 0x89
  · subst h89
    simp [trueLength, operandLength] at h
    simp [instructionLength, disassembleMov, decodeModrmAddress]
    grind
  by_cases h83 : opcode = 0x83
  · subst h83
    simp [trueLength, operandLength] at h
    simp [instructionLength, disassembleAlu]
    grind
  by_cases hFF : opcode = 0xFF
  · subst hFF
    simp [trueLength, operandLength] at h
    simp [instructionLength, disassemblePush]
    grind
  by_cases hC7 : opcode = 0xC7
  · subst hC7
    simp [trueLength, operandLength] at h
    simp [instructionLength, disassembleMovl]
    grind
  simp only [trueLength] at h
  simp only [instructionLength, disassemblePush, hC7]
  grind

theorem toUInt32_eq_signed_iff (b : UInt8) : b.toUInt32 = signed b ↔ b < 0x80 := by
  have hall : ∀ n < 256, (UInt8.ofNat n).toUInt32 = signed (UInt8.ofNat n) ↔
      UInt8.ofNat n < 0x80 := by decide +kernel
  simpa using hall b.toNat b.toNat_lt

theorem shownTarget_eq_iff (m : ℕ → UInt8) (a : ℕ) :
    shownTarget m a = trueTarget m a ↔ (m a = 0xEB → m (a + 1) < 0x80) := by
  rw [← toUInt32_eq_signed_iff, shownTarget, trueTarget]
  by_cases h : m a = 0xEB
  · simp [h]
  · simp [h]

theorem head_printStackFrame {m : ℕ → UInt8} {k a : ℕ} {l : List (ℕ × Option UInt32)}
    (h : printStackFrame m k a = some l) : l.head?.map Prod.fst = some a := by
  cases k with
  | zero => cases h
  | succ k =>
    rw [printStackFrame] at h
    split at h
    · cases h
      rfl
    · obtain ⟨l, -, rfl⟩ := map_eq_some_iff.mp h
      rfl

/-- **The listing is right** if and only if all instructions are handled. -/
theorem printStackFrame_eq_iff {m : ℕ → UInt8} {a : ℕ} {ns : List ℕ} (h : Stream m a ns) :
    (∃ k, printStackFrame m k a = some (listing m a ns)) ↔
      ∀ b ∈ starts a ns, Handled (m b) (m (b + 1)) := by
  induction ns generalizing a with
  | nil => exact iff_of_true ⟨1, if_pos h⟩ (by simp [starts])
  | cons n ns ih =>
    have hret : m a ≠ 0xC3 := fun hret => by simp [Stream, trueLength, hret] at h
    rw [starts, List.forall_mem_cons, ← ih h.2, handled_iff h.1, ← shownTarget_eq_iff]
    constructor
    · rintro ⟨_ | k, hk⟩
      · cases hk
      rw [printStackFrame, if_neg hret] at hk
      obtain ⟨l, hl, hcons⟩ := map_eq_some_iff.mp hk
      obtain ⟨hhead, rfl⟩ := List.cons.inj hcons
      have hnext : next m a = a + n :=
        some.inj ((head_printStackFrame hl).symm.trans (by cases ns <;> rfl))
      exact ⟨⟨Nat.add_left_cancel hnext, congrArg Prod.snd hhead⟩, k, hnext ▸ hl⟩
    · rintro ⟨⟨hlen, htarget⟩, k, hk⟩
      refine ⟨k + 1, ?_⟩
      rw [printStackFrame, if_neg hret, next, hlen, hk, htarget]
      rfl

/-- `push %ebp`, `mov %esp, %ebp`, a call, a jump and a return. -/
def frameCode (a : ℕ) : UInt8 :=
  [0x55, 0x89, 0xE5, 0xE8, 1, 0, 0, 0, 0xEB, 4, 0xC3].getD a 0

theorem printStackFrame_frameCode :
    ∃ k, printStackFrame frameCode k 0 =
      some [(0, none), (1, none), (3, some 9), (8, some 14), (10, none)] :=
  (@printStackFrame_eq_iff frameCode 0 [1, 2, 5, 2]
    ⟨by decide, by decide, by decide, by decide, rfl⟩).mpr
    (by simp [starts, Handled, frameCode, modOf, rmOf])

/-- A jump back, `jmp` to itself. -/
theorem not_listed_jmp : ∃ m, Stream m 0 [2] ∧
    ¬∃ k, printStackFrame m k 0 = some (listing m 0 [2]) := by
  refine ⟨fun a => if a = 0 then 0xEB else if a = 1 then 0xFE else 0xC3, ⟨by decide, rfl⟩, ?_⟩
  rintro ⟨_ | _ | _ | k, hk⟩
  · cases hk
  · cases hk
  all_goals exact absurd (some.inj hk) (by decide)

end AthenX.Decode
