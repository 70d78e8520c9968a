import AthenX.Devices.Clock
import AthenX.Lib.Congruential

/-!
# Random numbers

`srand` and `rand` of `arch/i686/random.c`. `rand` is a generator of full period. `srand` mixes its
argument with the word at the address of the argument, which is the argument again, so the two
cancel and the seed does not depend on it.
-/

namespace AthenX.Random

open Function

/-! ### The source -/

/-- What `srand` reads besides its argument. -/
structure Source where
  /-- The words of the code. -/
  code : UInt32 → UInt32
  /-- The address of `rdtsc`. -/
  rdtsc : UInt32
  rtc : ℕ → UInt8
  /-- The cycle counter. -/
  cycles : UInt64

/-- The addresses that `srand` reads. -/
inductive Address where
  | argument
  | code (a : UInt32)

/-- `read_memory_address` while the argument is on the stack. -/
def readMemoryAddress (e : Source) (s : UInt32) : Address → UInt32
  | .argument => s
  | .code a => e.code a

/-- `srand`: the seed it leaves. -/
def srand (e : Source) (s : UInt32) : UInt32 :=
  let memVal1 := readMemoryAddress e s .argument
  let memVal2 := readMemoryAddress e s (.code e.rdtsc)
  let t := Clock.getTime e.rtc
  s ^^^ memVal1 ^^^ memVal2 ^^^ (UInt32.ofNat t.h <<< 26) ^^^ (UInt32.ofNat t.m <<< 20) ^^^
    (UInt32.ofNat t.s <<< 14) ^^^ (UInt32.ofNat t.y <<< 8) ^^^ (UInt32.ofNat t.mo <<< 4) ^^^
      UInt32.ofNat t.d ^^^ e.cycles.toUInt32 ^^^ (e.cycles >>> 32).toUInt32

/-- `rand`: the number, which is also the new seed. -/
def rand (seed : UInt32) : UInt32 := (1103515245 * seed + 12345) % 0x80000000

/-! ### The seed -/

/-- The argument of `srand` has no effect, on the seed or on the numbers after it. -/
theorem srand_eq (e : Source) (s s' : UInt32) :
    srand e s = srand e s' ∧ ∀ n, rand^[n] (srand e s) = rand^[n] (srand e s') := by
  have h : srand e s = srand e s' := by
    simp [srand, readMemoryAddress]
  exact ⟨h, fun n => congrArg _ h⟩

/-- Two arguments with one first number. -/
theorem srand_zero_one :
    let e : Source := ⟨fun _ => 0, 0, fun _ => 0, 0⟩
    (0 : UInt32) % 0x80000000 ≠ 1 % 0x80000000 ∧ srand e 0 = srand e 1 ∧
      rand (srand e 0) = rand (srand e 1) := by
  decide

/-! ### The period -/

/-- A step of `rand`, modulo `2 ^ 31`. -/
theorem natCast_rand (x : UInt32) : ((rand x).toNat : ZMod (2 ^ 31)) =
    Congruential.affine (4 * 275878811 + 1) (2 * 6172 + 1) (x.toNat : ZMod (2 ^ 31)) := by
  have h : (rand x).toNat = (1103515245 * x.toNat + 12345) % 2 ^ 31 := by
    simp only [rand, UInt32.toNat_mod, UInt32.toNat_add, UInt32.toNat_mul, UInt32.reduceToNat]
    omega
  rw [h, ZMod.natCast_mod, Congruential.affine]
  push_cast
  norm_num

/-- **The numbers of `rand`.** From any seed and after any number `m` of calls, the next `2 ^ 31`
calls return every number below `2 ^ 31` once. -/
theorem rand_bijOn (seed : UInt32) (m : ℕ) :
    Set.BijOn (fun i => (rand^[m + i + 1] seed).toNat) (Set.Iio (2 ^ 31)) (Set.Iio (2 ^ 31)) := by
  have hcast : Semiconj (fun x : UInt32 => (x.toNat : ZMod (2 ^ 31))) rand
      (Congruential.affine (4 * 275878811 + 1) (2 * 6172 + 1)) := natCast_rand
  have hval : Set.BijOn ZMod.val (Set.univ : Set (ZMod (2 ^ 31))) (Set.Iio (2 ^ 31)) :=
    ⟨fun y _ => ZMod.val_lt y, (ZMod.val_injective _).injOn,
      fun n hn => ⟨n, trivial, ZMod.val_natCast_of_lt hn⟩⟩
  refine (hval.comp (Congruential.bijOn_iterate (Congruential.minimalPeriod_eq 30 275878811 6172
    ((rand^[m + 1] seed).toNat : ZMod (2 ^ 31))))).congr fun i _ => ?_
  have hstep := (hcast.iterate_right i).eq (rand^[m + 1] seed)
  rw [comp_apply, ← hstep, ← iterate_add_apply, show i + (m + 1) = m + i + 1 by omega,
    iterate_succ_apply', ZMod.val_natCast_of_lt]
  rw [rand, UInt32.toNat_mod]
  exact Nat.mod_lt _ (by decide)

end AthenX.Random
