/-
  File:      Veridie/Lib/Simulation.lean
  Subject:   Machines that simulate each other: each step of the one is a run of the other, and what
             can be seen of its outputs are the outputs of that run.

  * `Simulation` -- the relation of the states, and what the second machine does at a step;
  * `Simulation.inputs` -- what it does along a run;
  * `Simulation.run` -- related states stay related, and the outputs agree.
-/
import Veridie.Lib.Machine

namespace Veridie.Lib

/-- `N` follows `M`: at a step of `M` it makes those of `input`. -/
structure Simulation {σ ι ο τ κ ω : Type} (M : Machine σ ι ο) (N : Machine τ κ ω)
    (see : ο → Option ω) where
  related : σ → τ → Prop
  input : σ → ι → List κ
  exec : ∀ {s t} i, related s t → related (M.step s i).1 (N.exec t (input s i))
  outs : ∀ {s t} i, related s t → N.outs t (input s i) = (M.step s i).2.filterMap see

namespace Simulation

variable {σ ι ο τ κ ω : Type} {M : Machine σ ι ο} {N : Machine τ κ ω} {see : ο → Option ω}

/-- What `N` does along a run of `M`. -/
def inputs (S : Simulation M N see) (s : σ) : List ι → List κ
  | [] => []
  | i :: is => S.input s i ++ inputs S (M.step s i).1 is

/-- **The run rule.** -/
theorem run (S : Simulation M N see) {s : σ} {t : τ} (h : S.related s t) (is : List ι) :
    S.related (M.exec s is) (N.exec t (S.inputs s is)) ∧
      N.outs t (S.inputs s is) = (M.outs s is).filterMap see := by
  induction is generalizing s t with
  | nil => exact ⟨h, rfl⟩
  | cons i is ih =>
    obtain ⟨hrelated, houts⟩ := ih (S.exec i h)
    refine ⟨?_, ?_⟩
    · rw [inputs, Machine.exec_append]
      exact hrelated
    · rw [inputs, Machine.outs_append, S.outs i h, houts, Machine.outs_cons, List.filterMap_append]

/-- What holds of everything that `N` does at a step holds of all that it does along a run. -/
theorem forall_inputs (S : Simulation M N see) {p : κ → Prop} (h : ∀ s i, ∀ k ∈ S.input s i, p k)
    (s : σ) (is : List ι) : ∀ k ∈ S.inputs s is, p k := by
  induction is generalizing s with
  | nil => exact List.forall_mem_nil p
  | cons i is ih =>
    intro k hk
    rcases List.mem_append.mp hk with hk | hk
    · exact h s i k hk
    · exact ih (M.step s i).1 k hk

end Simulation

end Veridie.Lib
