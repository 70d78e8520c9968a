import Mathlib

/-!
# Machines that settle

A machine makes steps of its own, and its environment acts on it in the states that are *open*.
Between open states the machine is alone, and its steps are determined. So a property of the open
states is an invariant if the machine, left alone after anything that can happen in an open state,
comes to an open state with the property.
-/

namespace Settling

variable {σ : Type*}

/-- Left alone, the machine comes to an open state with property `P`. -/
inductive Settles (step : σ → Option σ) (isOpen : σ → Prop) (P : σ → Prop) : σ → Prop
  | here {a : σ} : isOpen a → P a → Settles step isOpen P a
  | step {a b : σ} : ¬isOpen a → step a = some b → Settles step isOpen P b →
      Settles step isOpen P a

/-- Left alone, the machine comes from `a` to `b`, and no state before `b` is open. -/
def Quiet (step : σ → Option σ) (isOpen : σ → Prop) : σ → σ → Prop :=
  Relation.ReflTransGen fun a b => ¬isOpen a ∧ step a = some b

variable {step : σ → Option σ} {isOpen : σ → Prop} {P Q : σ → Prop} {a b : σ}

theorem Settles.holds (h : Settles step isOpen P a) (ho : isOpen a) : P a := by
  cases h with
  | here _ hp => exact hp
  | step hn _ _ => exact absurd ho hn

theorem Settles.imp (h : Settles step isOpen P a) (hpq : ∀ b, P b → Q b) :
    Settles step isOpen Q a := by
  induction h with
  | here ho hp => exact .here ho (hpq _ hp)
  | step hn hs _ ih => exact .step hn hs ih

theorem Quiet.settles (h : Quiet step isOpen a b) (hb : Settles step isOpen P b) :
    Settles step isOpen P a := by
  induction h using Relation.ReflTransGen.head_induction_on with
  | refl => exact hb
  | head hs _ ih => exact .step hs.1 hs.2 ih

theorem Quiet.trans {c : σ} (h : Quiet step isOpen a b) (h' : Quiet step isOpen b c) :
    Quiet step isOpen a c := Relation.ReflTransGen.trans h h'

theorem Quiet.single (hn : ¬isOpen a) (hs : step a = some b) : Quiet step isOpen a b :=
  Relation.ReflTransGen.single ⟨hn, hs⟩

theorem Quiet.steps (h : Quiet step isOpen a b) :
    Relation.ReflTransGen (fun a b => step a = some b) a b :=
  Relation.ReflTransGen.mono (fun _ _ hs => hs.2) _ _ h

/-- **The invariant rule.** The environment acts on open and on waiting states. -/
theorem settles_of_reachable {env : σ → σ → Prop}
    (hstep : ∀ a b, isOpen a → P a → step a = some b → Settles step isOpen P b)
    (henv : ∀ a b, isOpen a → P a → env a b → Settles step isOpen P b)
    (hopen : ∀ a b, env a b → isOpen a ∨ step a = none)
    (ha : Settles step isOpen P a)
    (h : Relation.ReflTransGen (fun a b => step a = some b ∨ env a b) a b) :
    Settles step isOpen P b := by
  induction h with
  | refl => exact ha
  | tail _ hs ih =>
    cases ih with
    | here ho hp =>
      rcases hs with hs | hs
      · exact hstep _ _ ho hp hs
      · exact henv _ _ ho hp hs
    | step hn hs' hrest =>
      rcases hs with hs | hs
      · -- the machine is alone, and goes on as it has to
        cases hs.symm.trans hs'
        exact hrest
      · rcases hopen _ _ hs with ho | hnone
        · exact absurd ho hn
        · exact absurd (hnone.symm.trans hs') (Option.some_ne_none _).symm

/-! ### With a count -/

/-- The machine with a count, which its own steps leave alone. -/
def tally (step : σ → Option σ) (p : σ × ℕ) : Option (σ × ℕ) := (step p.1).map fun a => (a, p.2)

theorem tally_eq_some (n : ℕ) (h : step a = some b) : tally step (a, n) = some (b, n) := by
  rw [tally, h]
  rfl

theorem Settles.tally (h : Settles step isOpen P a) (n : ℕ) :
    Settles (tally step) (fun p => isOpen p.1) (fun p => P p.1 ∧ p.2 = n) (a, n) := by
  induction h with
  | here ho hp => exact .here ho ⟨hp, rfl⟩
  | step hn hs _ ih => exact .step hn (tally_eq_some n hs) ih

/-! ### From one open state to the next -/

/-- Left alone, the machine comes from `a` to `b`, the first open state on its way. -/
def Lands (step : σ → Option σ) (isOpen : σ → Prop) (a b : σ) : Prop :=
  Quiet step isOpen a b ∧ isOpen b

theorem Lands.here (h : isOpen a) : Lands step isOpen a a := ⟨.refl, h⟩

theorem Settles.exists_lands (h : Settles step isOpen P a) : ∃ b, Lands step isOpen a b ∧ P b := by
  induction h with
  | here ho hp => exact ⟨_, .here ho, hp⟩
  | step hn hs _ ih =>
    obtain ⟨b, ⟨hquiet, ho⟩, hp⟩ := ih
    exact ⟨b, ⟨.head ⟨hn, hs⟩ hquiet, ho⟩, hp⟩

theorem Quiet.lands {c : σ} (h : Quiet step isOpen a b) (hb : Lands step isOpen b c) :
    Lands step isOpen a c := ⟨h.trans hb.1, hb.2⟩

/-- **One landing.** -/
theorem Lands.unique {c : σ} (hb : Lands step isOpen a b) (hc : Lands step isOpen a c) : b = c := by
  obtain ⟨hb, hopen⟩ := hb
  induction hb using Relation.ReflTransGen.head_induction_on with
  | refl =>
    rcases Relation.ReflTransGen.cases_head hc.1 with h | ⟨d, hd, -⟩
    · exact h
    · exact absurd hopen hd.1
  | head hs _ ih =>
    rcases Relation.ReflTransGen.cases_head hc.1 with h | ⟨d, hd, hrest⟩
    · exact absurd (h ▸ hc.2) hs.1
    · cases hs.2.symm.trans hd.2
      exact ih ⟨hrest, hc.2⟩

end Settling
