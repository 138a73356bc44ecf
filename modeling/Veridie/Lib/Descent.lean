/-
  File:      Veridie/Lib/Descent.lean
  Subject:   How long a relation can go on from a state.

  * `Steps` -- so many steps, one after the other;
  * `Bounded`, `bounded_of_measure` -- a measure that every step lowers bounds their number;
  * `not_bounded_of_loop` -- a property that some step always keeps goes on for ever.
-/
import Mathlib

namespace Veridie.Lib

/-- So many steps of the relation. -/
inductive Steps {α : Type} (R : α → α → Prop) : Nat → α → α → Prop where
  | refl (a : α) : Steps R 0 a a
  | head {n : Nat} {a b c : α} (h : R a b) (hs : Steps R n b c) : Steps R (n + 1) a c

/-- No more than some number of steps can be made. -/
def Bounded {α : Type} (R : α → α → Prop) (a : α) : Prop := ∃ bound, ∀ n b, Steps R n a b → n ≤ bound

variable {α : Type} {R : α → α → Prop} {P : α → Prop}

theorem steps_le_measure (μ : α → Nat) (hstep : ∀ a b, P a → R a b → P b ∧ μ b < μ a) {n : Nat}
    {a b : α} (ha : P a) (h : Steps R n a b) : n ≤ μ a := by
  induction h with
  | refl a => exact Nat.zero_le _
  | head h hs ih =>
    obtain ⟨hb, hlt⟩ := hstep _ _ ha h
    exact Nat.lt_of_le_of_lt (ih hb) hlt

/-- **A measure that every step lowers** bounds the steps. -/
theorem bounded_of_measure (μ : α → Nat) (hstep : ∀ a b, P a → R a b → P b ∧ μ b < μ a) {a : α}
    (ha : P a) : Bounded R a := ⟨μ a, fun _ _ h => steps_le_measure μ hstep ha h⟩

theorem exists_steps (hloop : ∀ a, P a → ∃ b, R a b ∧ P b) (n : Nat) : ∀ a, P a → ∃ b, Steps R n a b := by
  induction n with
  | zero => exact fun a _ => ⟨a, .refl a⟩
  | succ n ih =>
    intro a ha
    obtain ⟨b, hab, hb⟩ := hloop a ha
    obtain ⟨c, hbc⟩ := ih b hb
    exact ⟨c, .head hab hbc⟩

/-- **What some step always keeps** goes on for ever. -/
theorem not_bounded_of_loop (hloop : ∀ a, P a → ∃ b, R a b ∧ P b) {a : α} (ha : P a) :
    ¬ Bounded R a := by
  rintro ⟨bound, hbound⟩
  obtain ⟨b, hb⟩ := exists_steps hloop (bound + 1) a ha
  exact absurd (hbound _ _ hb) (Nat.not_succ_le_self bound)

end Veridie.Lib
