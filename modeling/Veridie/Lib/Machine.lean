/-
  File:      Veridie/Lib/Machine.lean
  Subject:   Deterministic machines with outputs, their runs over input lists, and the induction
             rules every safety result uses.

  An environment that chooses freely (which event comes next, what a command answers, which message
  arrives) is the input list; a statement about every run is a statement about every list.

  * `Machine.exec`, `Machine.outs` -- state after, and outputs along, an input list;
  * `Machine.invariant` -- what holds at the start and is kept by each step holds after every run;
  * `Machine.log_invariant` -- the same for a property of the state and the outputs so far;
  * `Machine.Along` -- a condition every step of a run meets, judged in the state before the step;
    `Machine.invariant_along`, `Machine.log_invariant_along` -- the rules under such a condition;
  * `Machine.Sometime` -- a condition some step of a run meets;
  * `Machine.Since`, `Machine.since_iff` -- a condition some step has met and no step has undone
    since, and the rule for what holds in a state exactly since then;
  * `Machine.history_invariant_along` -- the same for a property of the state and the inputs so far.
-/
import Mathlib

namespace Veridie.Lib

/-- A machine: one input moves the state and yields outputs in order. -/
structure Machine (σ ι ο : Type) where
  step : σ → ι → σ × List ο

namespace Machine

variable {σ ι ο : Type} (M : Machine σ ι ο)

/-- State after the inputs. -/
def exec (s : σ) : List ι → σ
  | [] => s
  | i :: is => exec (M.step s i).1 is

/-- Outputs along the inputs. -/
def outs (s : σ) : List ι → List ο
  | [] => []
  | i :: is => (M.step s i).2 ++ outs (M.step s i).1 is

@[simp] theorem exec_nil (s : σ) : M.exec s [] = s := rfl

@[simp] theorem outs_nil (s : σ) : M.outs s [] = [] := rfl

theorem exec_cons (s : σ) (i : ι) (is : List ι) : M.exec s (i :: is) = M.exec (M.step s i).1 is := rfl

theorem outs_cons (s : σ) (i : ι) (is : List ι) :
    M.outs s (i :: is) = (M.step s i).2 ++ M.outs (M.step s i).1 is := rfl

theorem exec_append (s : σ) (is js : List ι) : M.exec s (is ++ js) = M.exec (M.exec s is) js := by
  induction is generalizing s with
  | nil => rfl
  | cons i is ih => exact ih (M.step s i).1

theorem outs_append (s : σ) (is js : List ι) :
    M.outs s (is ++ js) = M.outs s is ++ M.outs (M.exec s is) js := by
  induction is generalizing s with
  | nil => rfl
  | cons i is ih =>
    rw [List.cons_append, outs_cons, outs_cons, exec_cons, ih, List.append_assoc]

theorem exec_snoc (s : σ) (is : List ι) (i : ι) :
    M.exec s (is ++ [i]) = (M.step (M.exec s is) i).1 := by rw [exec_append]; rfl

theorem outs_snoc (s : σ) (is : List ι) (i : ι) :
    M.outs s (is ++ [i]) = M.outs s is ++ (M.step (M.exec s is) i).2 := by
  rw [outs_append, outs_cons, outs_nil, List.append_nil]

/-- An output of a run is one of some step. -/
theorem mem_outs {s : σ} {is : List ι} {o : ο} :
    o ∈ M.outs s is ↔ ∃ is₁ i is₂, is = is₁ ++ i :: is₂ ∧ o ∈ (M.step (M.exec s is₁) i).2 := by
  constructor
  · induction is generalizing s with
    | nil => exact fun h => absurd h List.not_mem_nil
    | cons i is ih =>
      rw [outs_cons, List.mem_append]
      rintro (h | h)
      · exact ⟨[], i, is, rfl, h⟩
      · obtain ⟨is₁, j, is₂, rfl, hj⟩ := ih h
        exact ⟨i :: is₁, j, is₂, rfl, hj⟩
  · rintro ⟨is₁, i, is₂, rfl, h⟩
    rw [outs_append, outs_cons]
    exact List.mem_append_right _ (List.mem_append_left _ h)

/-- Every step of the run meets `G` in the state before it. -/
def Along (G : σ → ι → Prop) (s : σ) : List ι → Prop
  | [] => True
  | i :: is => G s i ∧ Along G (M.step s i).1 is

theorem along_append {G : σ → ι → Prop} {s : σ} {is js : List ι} :
    M.Along G s (is ++ js) ↔ M.Along G s is ∧ M.Along G (M.exec s is) js := by
  induction is generalizing s with
  | nil => exact ⟨fun h => ⟨trivial, h⟩, fun h => h.2⟩
  | cons i is ih =>
    show G s i ∧ M.Along G (M.step s i).1 (is ++ js) ↔
      (G s i ∧ M.Along G (M.step s i).1 is) ∧ M.Along G (M.exec (M.step s i).1 is) js
    rw [ih, and_assoc]

theorem along_of_forall {G : σ → ι → Prop} (h : ∀ s i, G s i) (s : σ) (is : List ι) :
    M.Along G s is := by
  induction is generalizing s with
  | nil => trivial
  | cons i is ih => exact ⟨h s i, ih _⟩

theorem along_mono {G H : σ → ι → Prop} (hGH : ∀ s i, G s i → H s i) {s : σ} {is : List ι}
    (h : M.Along G s is) : M.Along H s is := by
  induction is generalizing s with
  | nil => trivial
  | cons i is ih => exact ⟨hGH s i h.1, ih h.2⟩

theorem along_and {G H : σ → ι → Prop} {s : σ} {is : List ι} (hG : M.Along G s is)
    (hH : M.Along H s is) : M.Along (fun s i => G s i ∧ H s i) s is := by
  induction is generalizing s with
  | nil => trivial
  | cons i is ih => exact ⟨⟨hG.1, hH.1⟩, ih hG.2 hH.2⟩

/-- A condition along a run, step by step. -/
theorem along_of_split {G : σ → ι → Prop} {s : σ} {is : List ι}
    (h : ∀ is₁ i is₂, is = is₁ ++ i :: is₂ → G (M.exec s is₁) i) : M.Along G s is := by
  induction is generalizing s with
  | nil => trivial
  | cons i is ih =>
    exact ⟨h [] i is rfl, ih fun is₁ j is₂ e => h (i :: is₁) j is₂ (congrArg (i :: ·) e)⟩

/-- A condition on the inputs alone that holds of each of them holds along the run. -/
theorem along_of_mem {p : ι → Prop} {s : σ} {is : List ι} (h : ∀ i ∈ is, p i) :
    M.Along (fun _ i => p i) s is := by
  induction is generalizing s with
  | nil => trivial
  | cons i is ih =>
    exact ⟨h i List.mem_cons_self, ih fun j hj => h j (List.mem_cons_of_mem i hj)⟩

/-- Some step of the run meets `G` in the state before it. -/
def Sometime (G : σ → ι → Prop) (s : σ) : List ι → Prop
  | [] => False
  | i :: is => G s i ∨ Sometime G (M.step s i).1 is

/-- Some step of the run meets `A`, and no step behind it meets `B`. -/
def Since (A B : σ → ι → Prop) (s : σ) (is : List ι) : Prop :=
  ∃ is₁ i is₂, is = is₁ ++ i :: is₂ ∧ A (M.exec s is₁) i ∧
    M.Along (fun s i => ¬ B s i) (M.exec s (is₁ ++ [i])) is₂

theorem since_nil {A B : σ → ι → Prop} {s : σ} : ¬ M.Since A B s [] := by
  rintro ⟨is₁, i, is₂, hsplit, _⟩
  exact absurd hsplit.symm (List.append_ne_nil_of_right_ne_nil is₁ (List.cons_ne_nil i is₂))

theorem since_snoc {A B : σ → ι → Prop} {s : σ} {is : List ι} {i : ι} :
    M.Since A B s (is ++ [i]) ↔ A (M.exec s is) i ∨ M.Since A B s is ∧ ¬ B (M.exec s is) i := by
  constructor
  · rintro ⟨is₁, j, is₂, hsplit, hA, hB⟩
    rcases List.eq_nil_or_concat is₂ with rfl | ⟨is₂, k, rfl⟩
    · obtain ⟨rfl, hj⟩ := List.append_inj' hsplit rfl
      cases hj
      exact Or.inl hA
    · rw [List.concat_eq_append] at hsplit hB
      obtain ⟨rfl, hk⟩ :=
        List.append_inj' (hsplit.trans (List.append_assoc is₁ (j :: is₂) [k]).symm) rfl
      cases hk
      obtain ⟨hB, hlast, _⟩ := (M.along_append).mp hB
      rw [← exec_append, ← List.append_cons] at hlast
      exact Or.inr ⟨⟨is₁, j, is₂, rfl, hA, hB⟩, hlast⟩
  · rintro (hA | ⟨⟨is₁, j, is₂, rfl, hA, hB⟩, hlast⟩)
    · exact ⟨is, i, [], rfl, hA, trivial⟩
    · refine ⟨is₁, j, is₂ ++ [i], List.append_assoc is₁ (j :: is₂) [i], hA, ?_⟩
      refine (M.along_append).mpr ⟨hB, ?_, trivial⟩
      rw [← exec_append, ← List.append_cons]
      exact hlast

/-- **The rule for `Since`**: what `A` brings about, what only `B` undoes, and what does not hold at
    the start holds exactly since `A`. -/
theorem since_iff {A B : σ → ι → Prop} {P : σ → Prop} {s : σ} (h0 : ¬ P s)
    (hstep : ∀ s i, P (M.step s i).1 ↔ A s i ∨ P s ∧ ¬ B s i) (is : List ι) :
    P (M.exec s is) ↔ M.Since A B s is := by
  induction is using List.reverseRecOn with
  | nil => exact iff_of_false h0 M.since_nil
  | append_singleton is i ih => rw [exec_snoc, hstep, since_snoc, ih]

variable {M}

/-- **The run rule under a step condition.** -/
theorem invariant_along {G : σ → ι → Prop} {P : σ → Prop} {s : σ} {is : List ι}
    (hstep : ∀ s i, G s i → P s → P (M.step s i).1) (hG : M.Along G s is) (h0 : P s) :
    P (M.exec s is) := by
  induction is generalizing s with
  | nil => exact h0
  | cons i is ih => exact ih hG.2 (hstep s i hG.1 h0)

/-- **The run rule**: kept by every step, so kept by every run. -/
theorem invariant {P : σ → Prop} {s : σ} (hstep : ∀ s i, P s → P (M.step s i).1) (h0 : P s)
    (is : List ι) : P (M.exec s is) :=
  invariant_along (G := fun _ _ => True) (fun s i _ => hstep s i)
    (M.along_of_forall (fun _ _ => trivial) s is) h0

/-- **The run rule with the outputs so far, under a step condition.** -/
theorem log_invariant_along {G : σ → ι → Prop} {P : σ → List ο → Prop} {s : σ} {is : List ι}
    {l : List ο} (hstep : ∀ s l i, G s i → P s l → P (M.step s i).1 (l ++ (M.step s i).2))
    (hG : M.Along G s is) (h0 : P s l) : P (M.exec s is) (l ++ M.outs s is) := by
  induction is generalizing s l with
  | nil => rw [outs_nil, List.append_nil]; exact h0
  | cons i is ih =>
    rw [exec_cons, outs_cons, ← List.append_assoc]
    exact ih hG.2 (hstep s l i hG.1 h0)

/-- **The run rule with the outputs so far.** -/
theorem log_invariant {P : σ → List ο → Prop} {s : σ} {l : List ο}
    (hstep : ∀ s l i, P s l → P (M.step s i).1 (l ++ (M.step s i).2)) (h0 : P s l) (is : List ι) :
    P (M.exec s is) (l ++ M.outs s is) :=
  log_invariant_along (G := fun _ _ => True) (fun s l i _ => hstep s l i)
    (M.along_of_forall (fun _ _ => trivial) s is) h0

/-- **The run rule with the inputs so far, under a step condition.** -/
theorem history_invariant_along {G : σ → ι → Prop} {P : σ → List ι → Prop} {s : σ}
    {is js : List ι} (hstep : ∀ s js i, G s i → P s js → P (M.step s i).1 (js ++ [i]))
    (hG : M.Along G s is) (h0 : P s js) : P (M.exec s is) (js ++ is) := by
  induction is generalizing s js with
  | nil => rw [List.append_nil]; exact h0
  | cons i is ih =>
    rw [exec_cons, List.append_cons]
    exact ih hG.2 (hstep s js i hG.1 h0)

end Machine

end Veridie.Lib
