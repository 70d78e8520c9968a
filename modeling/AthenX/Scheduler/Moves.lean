import AthenX.Scheduler.Atomic

/-!
# Moves

Wherever interrupts are enabled, a timer interrupt may come, the task may call the
scheduler, or the next statement is made. From there the machine is alone until interrupts
are enabled again, so that a run goes by *moves* from one such state to the next.
-/

namespace AthenX.Scheduler

open Settling Option

/-! ### Runs -/

/-- What can come next while interrupts are enabled. -/
inductive Move where
  | call (c : Call)
  | interrupt
  /-- The next statement. -/
  | go
  deriving DecidableEq, Repr

/-- The machine with a move begun. -/
def Move.start (m : Machine) : Move → Option Machine
  | .call c    =>
    match m.code with
    | []      => none
    | op :: _ => if c.allowed op then some (m.call c) else none
  | .interrupt => if m.interrupts then some m.interrupt else none
  | .go        => step m

/-- What a move does to the variables. -/
def Move.act (m : Machine) : Move → Act
  | .call _    => .skip
  | .interrupt => .tick
  | .go        =>
    match m.code with
    | .pcbTake p :: _                                    => .take p
    | .initPcb p :: _                                    => .fill p
    | .lockScheduler :: .postpone :: .addReady p :: _    => .add p
    | .lockScheduler :: .postpone :: .addTerminated :: _ => .terminate
    | .lockScheduler :: .postpone :: .butlerTest :: _    => .butler
    | _                                                  => .skip

/-- A move of a run, with the machine before and after it. -/
structure Done where
  pre : Machine
  move : Move
  post : Machine

/-- What it did to the variables. -/
def Done.act (d : Done) : Act := d.move.act d.pre

/-- A run of the moves that `ok` allows. `tr` lists them, the first one first. -/
inductive MoveRun (ok : Machine → Move → Prop) (m₀ : Machine) : List Done → Machine → Prop
  | nil : MoveRun ok m₀ [] m₀
  | snoc {tr : List Done} {m m₁ m' : Machine} {v : Move} : MoveRun ok m₀ tr m → ok m v →
      v.start m = some m₁ → Lands step IsOpen m₁ m' → MoveRun ok m₀ (tr ++ [⟨m, v, m'⟩]) m'

theorem MoveRun.trans {ok : Machine → Move → Prop} {m0 m m' : Machine} {tr tr' : List Done}
    (h : MoveRun ok m0 tr m) (h' : MoveRun ok m tr' m') : MoveRun ok m0 (tr ++ tr') m' := by
  induction h' with
  | nil => rwa [List.append_nil]
  | snoc _ hok hs hland ih =>
    rw [← List.append_assoc]
    exact .snoc ih hok hs hland

theorem filterMap_snoc {β : Type*} (f : Done → Option β) (tr : List Done) (d : Done) :
    (tr ++ [d]).filterMap f = tr.filterMap f ++ (f d).toList := by
  cases hd : f d <;> simp [hd]

/-- The machine when interrupts are enabled again, after at most `n` statements. -/
def land : ℕ → Machine → Option Machine
  | 0,     m => if m.interrupts then some m else none
  | n + 1, m => if m.interrupts then some m else (step m).bind (land n)

theorem lands_of_land {n : ℕ} : ∀ {m m' : Machine}, land n m = some m' →
    Lands step IsOpen m m' := by
  induction n with
  | zero =>
    intro m m' h
    simp only [land] at h
    split at h
    · next ho =>
      cases h
      exact Lands.here ho
    · cases h
  | succ n ih =>
    intro m m' h
    simp only [land] at h
    split at h
    · next ho =>
      cases h
      exact Lands.here ho
    · next ho =>
      obtain ⟨m1, h1, h2⟩ := bind_eq_some_iff.mp h
      have hquiet : QuietTo m m1 := Quiet.single ho h1
      exact hquiet.lands (ih h2)

/-- A run evaluated. -/
def runMoves (ok : Machine → Move → Bool) : List Move → Machine → Option (List Done × Machine)
  | [],      m => some ([], m)
  | v :: vs, m =>
    if ok m v then
      ((v.start m).bind (land 40)).bind fun m' =>
        (runMoves ok vs m').map fun r => (⟨m, v, m'⟩ :: r.1, r.2)
    else none

theorem moveRun_of_runMoves {ok : Machine → Move → Prop} {okb : Machine → Move → Bool}
    (hok : ∀ m v, okb m v = true → ok m v) {vs : List Move} :
    ∀ {m m' : Machine} {tr : List Done}, runMoves okb vs m = some (tr, m') →
      MoveRun ok m tr m' := by
  induction vs with
  | nil =>
    intro m m' tr h
    cases h
    exact .nil
  | cons v vs ih =>
    intro m m' tr h
    simp only [runMoves] at h
    split at h
    · next hv =>
      obtain ⟨m2, h2, hrest⟩ := bind_eq_some_iff.mp h
      obtain ⟨m1, h1, hland⟩ := bind_eq_some_iff.mp h2
      obtain ⟨⟨tr', m''⟩, hr, heq⟩ := map_eq_some_iff.mp hrest
      cases heq
      have hone : MoveRun ok m ([] ++ [⟨m, v, m2⟩]) m2 :=
        .snoc .nil (hok m v hv) h1 (lands_of_land hland)
      exact hone.trans (ih hr)
    · cases h

/-- A whole call of `CreateProcess` that finds block `p` free. -/
def createMoves (p : ℕ) : List Move := .call .create :: List.replicate (p + 4) .go

end AthenX.Scheduler
