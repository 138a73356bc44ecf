/-
  File:      Veridie/Utils/Canceling.lean
  Subject:   What becomes of nested tasks in every run: while the handle of the root exists, a child
             that has ended has its parent resumed at once with its result; when the handle is
             destroyed while they are suspended, the next resumption unwinds all of them.

  A body can catch `CanceledException` like any other one, and go on; so can any of its callers.

  * `NoCatch` -- no body does;
  * `Armed` -- then no frame is suspended at a place where it is caught;
  * `Unwinding`, `unwinding_step` -- from the destruction of the handle on, nothing but unwinding;
  * `unwinds` -- and it comes to its end;
  * `InOrder`, `Unwound` -- what is seen as long as the handle exists, and from its destruction on;
    `chain_inOrder` and `chain_unwound` show them for every run.
-/
import Veridie.Utils.Story

namespace Veridie.Utils

open Veridie.Lib

variable {L V X O : Type}

/-! ## 1. Handlers -/

/-- The operation goes on from there when its await is over. -/
def Op.ContinuesAt (next : Result V X → L) : Op L V X O → Prop
  | .awaitReady _ next' => next' = next
  | .await next' => next' = next
  | .call _ next' => next' = next
  | .exec _ _ | .endScope _ | .ret _ | .throw _ => False

/-- No body catches `CanceledException`: where an await throws it, the body is left with it. -/
def NoCatch (code : L → Op L V X O) : Prop :=
  ∀ l next, (code l).ContinuesAt next → code (next (.error .canceled)) = .throw .canceled

/-- Where a coroutine goes on when its await is over. -/
def Point.next? : Point L V X → Option (Result V X → L)
  | .awaiting next => some next
  | .starting _ next => some next
  | .joined _ next => some next
  | .resumed _ next => some next
  | .initial _ | .running _ | .final => none

/-- No frame is at a place where `CanceledException` is caught. -/
def Armed (code : L → Op L V X O) (frames : Nat → Option (Frame L V X)) : Prop :=
  ∀ f fr next, frames f = some fr → fr.point.next? = some next →
    code (next (.error .canceled)) = .throw .canceled

section Armed

variable {code : L → Op L V X O} {frames : Nat → Option (Frame L V X)} {t : Tasks L V X} {f : Nat}
  {fr : Frame L V X} {rest : List Nat}

theorem Armed.update (h : Armed code frames)
    (hfr : ∀ next, fr.point.next? = some next → code (next (.error .canceled)) = .throw .canceled) :
    Armed code (Function.update frames f (some fr)) := by
  intro g gr next hg hnext
  by_cases hgf : g = f
  · rw [hgf, Function.update_self] at hg
    cases hg
    exact hfr next hnext
  · rw [Function.update_of_ne hgf] at hg
    exact h g gr next hg hnext

theorem Armed.remove (h : Armed code frames) : Armed code (Function.update frames f none) := by
  intro g gr next hg hnext
  by_cases hgf : g = f
  · rw [hgf, Function.update_self] at hg
    exact nomatch hg
  · rw [Function.update_of_ne hgf] at hg
    exact h g gr next hg hnext

theorem Armed.destroyHandle (h : Armed code frames) (c : Nat) :
    Armed code (destroyHandle (O := O) frames c).1 := by
  unfold Utils.destroyHandle
  cases hframe : frames c with
  | none => exact h
  | some fr =>
    dsimp only
    split
    · exact h.remove
    · exact h.update fun next hnext => h c fr next hframe hnext

theorem Armed.destroyHandles (h : Armed code frames) (cs : List Nat) :
    Armed code (destroyHandles (O := O) frames cs).1 := by
  induction cs generalizing frames with
  | nil => exact h
  | cons c cs ih => exact ih (h.destroyHandle c)

theorem Armed.resumeParent (h : Armed code frames) {p : Nat}
    {frames' : Nat → Option (Frame L V X)} (hresume : resumeParent frames p = some frames') :
    Armed code frames' := by
  unfold Utils.resumeParent at hresume
  cases hframe : frames p with
  | none =>
    rw [hframe] at hresume
    exact nomatch hresume
  | some fr =>
    rw [hframe] at hresume
    dsimp only at hresume
    split at hresume
    · rename_i c next hpoint
      cases hresume
      refine h.update fun next' hnext => h p fr next' hframe ?_
      rw [hpoint]
      exact hnext
    · exact nomatch hresume

theorem Armed.finish (h : Armed code t.frames) (r : Result V X) :
    Armed code (t.finish (O := O) f fr rest r).1.frames := by
  have hdestroyed : Armed code (Utils.destroyHandles (O := O) t.frames fr.handles).1 :=
    h.destroyHandles fr.handles
  have hended : ∀ fin : Frame L V X, fin.point = .final → Armed code
      (Function.update (Utils.destroyHandles (O := O) t.frames fr.handles).1 f (some fin)) := by
    intro fin hfin
    refine hdestroyed.update fun next hnext => ?_
    rw [hfin] at hnext
    exact nomatch hnext
  unfold Tasks.finish
  dsimp only
  split
  · exact hdestroyed.remove
  · split
    · exact hended _ rfl
    · split
      · exact hended _ rfl
      · rename_i hresume
        exact (hended _ rfl).resumeParent hresume

theorem Armed.run {l : L} (h : Armed code t.frames) : Armed code (t.set f (fr.at (.running l))).frames :=
  h.update fun _ hnext => nomatch hnext

theorem Armed.collect (h : Armed code t.frames) (c : Nat) (next : Result V X → L) :
    Armed code (t.collect (O := O) f fr c next).1.frames := by
  unfold Tasks.collect
  split
  · exact h
  · exact h.run

theorem Armed.perform (hcode : NoCatch code) (h : Armed code t.frames) (l : L) :
    Armed code (t.perform f fr rest (code l)).1.frames := by
  have hnext := hcode l
  cases hop : code l with
  | exec o next => exact h.run
  | awaitReady r next =>
    unfold Tasks.perform
    dsimp only
    split
    · exact h
    · exact h.run
  | await next =>
    refine h.update fun next' hnext' => ?_
    cases hnext'
    exact hnext next (by rw [hop]; rfl)
  | call child next =>
    refine Armed.update (h.update fun next' hnext' => ?_) fun next' hnext' => nomatch hnext'
    cases hnext'
    exact hnext next (by rw [hop]; rfl)
  | endScope next =>
    unfold Tasks.perform
    dsimp only
    split
    · exact h.run
    · exact (h.destroyHandle _).update fun _ hnext' => nomatch hnext'
  | ret v => exact h.finish _
  | throw e => exact h.finish _

theorem Armed.advance (hcode : NoCatch code) (h : Armed code t.frames) :
    Armed code (t.advance code).1.frames := by
  unfold Tasks.advance
  split
  · exact h
  · rename_i f rest _
    split
    · exact h
    · rename_i fr hframe
      split
      · split
        · exact h
        · exact h.finish _
        · exact h.run
      · exact Armed.perform hcode h _
      · rename_i c next hpoint
        split
        · exact h
        · rename_i inner hinner
          dsimp only
          split
          · exact h.collect c next
          · refine Armed.update (h.update fun next' hnext' => h c inner next' hinner hnext')
              fun next' hnext' => ?_
            refine h f fr next' hframe ?_
            rw [hpoint]
            exact hnext'
      · exact h.collect _ _
      · exact h
      · exact h
      · exact h

theorem Armed.step (hcode : NoCatch code) (h : Armed code t.frames) (i : TaskInput V X) :
    Armed code ((taskMachine code).step t i).1.frames := by
  cases i with
  | advance => exact h.advance hcode
  | resume f r =>
    show Armed code (t.resume (O := O) f r).1.frames
    unfold Tasks.resume
    split
    · exact h
    · split
      · split
        · exact h
        · exact h.run
      · exact h
  | destroy =>
    show Armed code (if t.handle && t.idle then
      ({ t with frames := (Utils.destroyHandle t.frames 0).1, handle := false },
        (Utils.destroyHandle t.frames 0).2) else (t, [])).1.frames
    split
    · exact h.destroyHandle 0
    · exact h

end Armed

/-! ## 2. Unwinding -/

/-- An event of the unwinding: `CanceledException` leaves a body or is thrown on by its caller, a
    frame is destroyed. -/
def Event.Unwinds : Event V X O → Prop
  | .finished _ r | .resumed _ _ r => r = .error .canceled
  | .destroyed _ => True
  | .exec _ _ | .called _ _ | .undefined => False

/-- The handle of the root is gone: all tasks are suspended, or the innermost is about to throw
    `CanceledException`, or about to be thrown it by its child. -/
inductive Unwinding (code : L → Op L V X O) (t : Tasks L V X) : List (Act L V X) → Prop where
  | waiting {acts} (hidle : ∀ a ∈ acts, a.2.busy = false) : Unwinding code t acts
  | throwing {f fr ps rest l} (hstack : t.stack = f :: rest) (hpoint : fr.point = .running l)
      (hthrow : code l = .throw .canceled) (hidle : ∀ a ∈ ps, a.2.busy = false) :
      Unwinding code t ((f, fr) :: ps)
  | taking {f fr ps rest c next} (hstack : t.stack = f :: rest) (hpoint : fr.point = .resumed c next)
      (hidle : ∀ a ∈ ps, a.2.busy = false) : Unwinding code t ((f, fr) :: ps)

section Unwinding

variable {code : L → Op L V X O} {t : Tasks L V X} {acts ps : List (Act L V X)} {f : Nat}
  {fr : Frame L V X} {log : List (Event V X O)} {rest : List Nat}

theorem advance_running {l : L} (hstack : t.stack = f :: rest) (hframe : t.frames f = some fr)
    (hpoint : fr.point = .running l) : t.advance code = t.perform f fr rest (code l) := by
  unfold Tasks.advance
  rw [hstack]
  dsimp only
  rw [hframe]
  dsimp only
  rw [hpoint]

theorem advance_resumed {c : Nat} {next : Result V X → L} (hstack : t.stack = f :: rest)
    (hframe : t.frames f = some fr) (hpoint : fr.point = .resumed c next) :
    t.advance code = t.collect f fr c next := by
  unfold Tasks.advance
  rw [hstack]
  dsimp only
  rw [hframe]
  dsimp only
  rw [hpoint]

/-- What is suspended at its end or destroyed only leaves the stack. -/
theorem advance_dead (hstack : t.stack = f :: rest) (hdead : t.live f = false) :
    t.advance code = ({ t with stack := rest }, []) := by
  unfold Tasks.advance
  rw [hstack]
  dsimp only
  unfold Tasks.live at hdead
  cases hframe : t.frames f with
  | none => rfl
  | some fr =>
    rw [hframe] at hdead
    dsimp only at hdead
    have hdone : fr.done = true := by simpa using hdead
    dsimp only
    unfold Frame.done at hdone
    split at hdone
    · rename_i hpoint
      rw [hpoint]
    · exact nomatch hdone

theorem finish_events {r : Result V X} {e : Event V X O} (he : e ∈ (t.finish f fr rest r).2) :
    (∃ c, e = .destroyed c) ∨ e = .finished f r ∨ e = .undefined := by
  have hhandle : ∀ frames : Nat → Option (Frame L V X), ∀ c, ∀ e : Event V X O,
      e ∈ (destroyHandle frames c).2 → (∃ d, e = .destroyed d) ∨ e = .undefined := by
    intro frames c e he
    unfold destroyHandle at he
    split at he
    · exact Or.inr (List.mem_singleton.mp he)
    · split at he
      · exact Or.inl ⟨c, List.mem_singleton.mp he⟩
      · exact absurd he List.not_mem_nil
  have hhandles : ∀ (cs : List Nat) (frames : Nat → Option (Frame L V X)), ∀ e : Event V X O,
      e ∈ (destroyHandles frames cs).2 → (∃ d, e = .destroyed d) ∨ e = .undefined := by
    intro cs
    induction cs with
    | nil => exact fun _ e he => absurd he List.not_mem_nil
    | cons c cs ih =>
      intro frames e he
      rcases List.mem_append.mp he with he | he
      · exact hhandle frames c e he
      · exact ih _ e he
  have hfirst : ∀ e : Event V X O, e ∈ (destroyHandles t.frames fr.handles).2 →
      (∃ c, e = .destroyed c) ∨ e = .finished f r ∨ e = .undefined := by
    intro e he
    exact (hhandles fr.handles t.frames e he).imp_right Or.inr
  unfold Tasks.finish at he
  dsimp only at he
  split at he
  · rcases List.mem_append.mp he with he | he
    · exact hfirst e he
    · rcases List.mem_cons.mp he with he | he
      · exact Or.inr (Or.inl he)
      · exact Or.inl ⟨f, List.mem_singleton.mp he⟩
  · split at he
    · rcases List.mem_append.mp he with he | he
      · exact hfirst e he
      · exact Or.inr (Or.inl (List.mem_singleton.mp he))
    · split at he
      · rcases List.mem_append.mp he with he | he
        · exact hfirst e he
        · rcases List.mem_cons.mp he with he | he
          · exact Or.inr (Or.inl he)
          · exact Or.inr (Or.inr (List.mem_singleton.mp he))
      · rcases List.mem_append.mp he with he | he
        · exact hfirst e he
        · exact Or.inr (Or.inl (List.mem_singleton.mp he))

theorem finish_unwinds {acts' : List (Act L V X)}
    (hkeeps : KeepsAs log (t.finish f fr rest (.error .canceled)) acts') :
    ∀ e ∈ (t.finish f fr rest (.error .canceled) : Tasks L V X × List (Event V X O)).2,
      e.Unwinds := by
  intro e he
  rcases finish_events he with ⟨c, rfl⟩ | rfl | rfl
  · trivial
  · rfl
  · exact absurd (List.mem_append_right log he) hkeeps.2.defined

theorem finish_handle (r : Result V X) : (t.finish (O := O) f fr rest r).1.handle = t.handle := by
  unfold Tasks.finish
  dsimp only
  split
  · rfl
  · split
    · rfl
    · split <;> rfl

theorem collect_same {c : Nat} {next : Result V X → L} :
    (t.collect (O := O) f fr c next).1.stack = t.stack ∧
      (t.collect (O := O) f fr c next).1.handle = t.handle := by
  unfold Tasks.collect
  split
  · exact ⟨rfl, rfl⟩
  · exact ⟨rfl, rfl⟩

/-- The step of a body that is about to throw `CanceledException`. -/
theorem throwing_step {l : L} (h : Nested t ((f, fr) :: ps)) (hstack : t.stack = f :: rest)
    (hpoint : fr.point = .running l) (hthrow : code l = .throw .canceled) :
    t.advance code = t.finish f fr rest (.error .canceled) ∧ fr.busy = true := by
  constructor
  · rw [advance_running hstack (h.here (f, fr) List.mem_cons_self) hpoint, hthrow]
    rfl
  · unfold Frame.busy
    rw [hpoint]

theorem throwing_root {l : L} (h : Nested t [(f, fr)]) (ht : Told t [(f, fr)] log)
    (hstack : t.stack = f :: rest) (hpoint : fr.point = .running l)
    (hthrow : code l = .throw .canceled) :
    KeepsAs log (t.advance code) [] ∧ (t.advance code).1.handle = t.handle ∧
      ∀ e ∈ (t.advance code).2, e.Unwinds := by
  obtain ⟨hstep, hbusy⟩ := throwing_step h hstack hpoint hthrow
  have hkeeps := finish_root h ht hbusy (not_awaits hpoint) l hstack (.error .canceled)
  rw [hstep]
  exact ⟨hkeeps, finish_handle _, finish_unwinds hkeeps⟩

theorem throwing_child {l : L} {p : Nat} {pf : Frame L V X} (h : Nested t ((f, fr) :: (p, pf) :: ps))
    (ht : Told t ((f, fr) :: (p, pf) :: ps) log) (hstack : t.stack = f :: rest)
    (hpoint : fr.point = .running l) (hthrow : code l = .throw .canceled)
    (hidle : pf.busy = false) :
    ∃ pf' next, pf'.point = .resumed f next ∧ (t.advance code).1.stack = p :: f :: rest ∧
      KeepsAs log (t.advance code) ((p, pf') :: ps) ∧ (t.advance code).1.handle = t.handle ∧
      ∀ e ∈ (t.advance code).2, e.Unwinds := by
  obtain ⟨hstep, hbusy⟩ := throwing_step h hstack hpoint hthrow
  obtain ⟨pf', hkeeps, hparent⟩ :=
    finish_child h ht hbusy (not_awaits hpoint) l hstack (.error .canceled)
  obtain ⟨⟨next, hresumed⟩, hstack'⟩ := hparent hidle
  rw [hstep]
  exact ⟨pf', next, hresumed, hstack', hkeeps, finish_handle _, finish_unwinds hkeeps⟩

/-- The step of a body that is about to be thrown `CanceledException`. -/
theorem taking_step {c : Nat} {next : Result V X → L} (h : Nested t ((f, fr) :: ps))
    (ht : Told t ((f, fr) :: ps) log) (harmed : Armed code t.frames) (hhandle : t.handle = false)
    (hstack : t.stack = f :: rest) (hpoint : fr.point = .resumed c next) :
    ∃ l, code l = .throw .canceled ∧
      KeepsAs log (t.advance code) ((f, fr.at (.running l)) :: ps) ∧
      (t.advance code).1.stack = f :: rest ∧ (t.advance code).1.handle = t.handle ∧
      ∀ e ∈ (t.advance code).2, e.Unwinds := by
  have hframe := h.here (f, fr) List.mem_cons_self
  obtain ⟨r', hkeeps, hr', hevs⟩ := collect_keeps h ht (Or.inr hpoint)
  rw [advance_resumed hstack hframe hpoint]
  refine ⟨next r', ?_, hkeeps, ?_, ?_, fun e he => ?_⟩
  · rw [hr' hhandle]
    exact harmed f fr next hframe (by rw [hpoint]; rfl)
  · rw [collect_same.1, hstack]
  · rw [collect_same.2]
  · rw [hevs] at he
    rw [List.mem_singleton.mp he]
    exact hr' hhandle

/-- Where all tasks are suspended, nothing on the stack goes on. -/
theorem Nested.stack_dead (h : Nested t acts) (hidle : ∀ a ∈ acts, a.2.busy = false) :
    t.stack.filter t.live = [] := by
  rw [h.stack, List.map_eq_nil_iff]
  exact List.filter_eq_nil_iff.mpr fun a ha hbusy => nomatch (hidle a ha).symm.trans hbusy

/-- **Without the handle of the root there is nothing but unwinding**, whatever happens. -/
theorem unwinding_step (h : Nested t acts) (ht : Told t acts log)
    (harmed : Armed code t.frames) (hhandle : t.handle = false) (hu : Unwinding code t acts)
    (i : TaskInput V X) :
    ∃ acts', KeepsAs log ((taskMachine code).step t i) acts' ∧
      Unwinding code ((taskMachine code).step t i).1 acts' ∧
      ((taskMachine code).step t i).1.handle = false ∧
      ∀ e ∈ ((taskMachine code).step t i).2, e.Unwinds := by
  cases i with
  | destroy =>
    have hstep : (taskMachine code).step t .destroy = (t, []) := by
      show (if t.handle && t.idle then
        ({ t with frames := (destroyHandle t.frames 0).1, handle := false },
          (destroyHandle t.frames 0).2) else (t, [])) = (t, [])
      rw [hhandle, Bool.false_and, if_neg Bool.false_ne_true]
    rw [hstep]
    exact ⟨acts, same_keeps h ht, hu, hhandle, fun e he => absurd he List.not_mem_nil⟩
  | resume g r =>
    show ∃ acts', KeepsAs log (t.resume g r) acts' ∧ Unwinding code (t.resume (O := O) g r).1 acts' ∧
      (t.resume (O := O) g r).1.handle = false ∧ ∀ e ∈ (t.resume (O := O) g r).2, e.Unwinds
    by_cases hawaiting : ∃ gr next, t.frames g = some gr ∧ gr.point = .awaiting next
    · obtain ⟨gr, next, hframe, hpoint⟩ := hawaiting
      obtain ⟨ps, rfl⟩ := h.awaiting_head hframe hpoint
      obtain ⟨r', hstep, hkeeps, hr'⟩ := wake_keeps h ht hpoint r
      refine ⟨_, hkeeps, ?_, ?_, ?_⟩
      · have hidle : ∀ a ∈ ps, a.2.busy = false := by
          cases hu with
          | waiting hidle => exact fun a ha => hidle a (List.mem_cons_of_mem _ ha)
          | throwing _ _ _ hidle => exact hidle
          | taking _ _ hidle => exact hidle
        have hthrow : code (next r') = .throw .canceled := by
          rw [hr' hhandle]
          exact harmed g gr next hframe (by rw [hpoint]; rfl)
        rw [hstep]
        exact .throwing rfl rfl hthrow hidle
      · rw [hstep]
        exact hhandle
      · rw [hstep]
        exact fun e he => absurd he List.not_mem_nil
    · rw [resume_other fun gr next hframe hpoint => hawaiting ⟨gr, next, hframe, hpoint⟩]
      exact ⟨acts, same_keeps h ht, hu, hhandle, fun e he => absurd he List.not_mem_nil⟩
  | advance =>
    show ∃ acts', KeepsAs log (t.advance code) acts' ∧ Unwinding code (t.advance code).1 acts' ∧
      (t.advance code).1.handle = false ∧ ∀ e ∈ (t.advance code).2, e.Unwinds
    cases hu with
    | waiting hidle =>
      have hdead := h.stack_dead hidle
      cases hstack : t.stack with
      | nil =>
        have hstep : t.advance code = (t, []) := by
          unfold Tasks.advance
          rw [hstack]
        rw [hstep]
        exact ⟨acts, same_keeps h ht, .waiting hidle, hhandle,
          fun e he => absurd he List.not_mem_nil⟩
      | cons g rest =>
        have hlive : t.live g = false := by
          refine Bool.eq_false_iff.mpr fun hlive => ?_
          exact List.filter_eq_nil_iff.mp hdead g (hstack ▸ List.mem_cons_self) hlive
        rw [advance_dead hstack hlive]
        exact ⟨acts, pop_keeps h ht hstack hlive, .waiting hidle, hhandle,
          fun e he => absurd he List.not_mem_nil⟩
    | @throwing f fr ps rest l hstack hpoint hthrow hidle =>
      cases ps with
      | nil =>
        obtain ⟨hkeeps, hsame, hevs⟩ := throwing_root h ht hstack hpoint hthrow
        exact ⟨[], hkeeps, .waiting fun a ha => absurd ha List.not_mem_nil, hsame.trans hhandle,
          hevs⟩
      | cons a ps =>
        obtain ⟨pf', next, hresumed, hstack', hkeeps, hsame, hevs⟩ :=
          throwing_child h ht hstack hpoint hthrow (hidle a List.mem_cons_self)
        exact ⟨_, hkeeps, .taking hstack' hresumed fun b hb => hidle b (List.mem_cons_of_mem _ hb),
          hsame.trans hhandle, hevs⟩
    | taking hstack hpoint hidle =>
      obtain ⟨l, hthrow, hkeeps, hstack', hsame, hevs⟩ :=
        taking_step h ht harmed hhandle hstack hpoint
      exact ⟨_, hkeeps, .throwing hstack' rfl hthrow hidle, hsame.trans hhandle, hevs⟩

theorem unwinding_run (hcode : NoCatch code) (is : List (TaskInput V X)) (h : Nested t acts)
    (ht : Told t acts log) (harmed : Armed code t.frames) (hhandle : t.handle = false)
    (hu : Unwinding code t acts) : ∀ e ∈ (taskMachine code).outs t is, e.Unwinds := by
  induction is generalizing t acts log with
  | nil => exact fun e he => absurd he List.not_mem_nil
  | cons i is ih =>
    obtain ⟨acts', hkeeps, hu', hhandle', hevs⟩ := unwinding_step h ht harmed hhandle hu i
    intro e he
    rw [Machine.outs_cons] at he
    rcases List.mem_append.mp he with he | he
    · exact hevs e he
    · exact ih hkeeps.1 hkeeps.2 (harmed.step hcode i) hhandle' hu' e he

/-- The code goes on, a number of times. -/
def advances (n : Nat) : List (TaskInput V X) := List.replicate n .advance

/-- No task is left, and the stack is empty in the end. -/
theorem drains (hgone : ∀ i, t.frames i = none) : ∃ n,
    (∀ i, ((taskMachine code).exec t (advances n)).frames i = none) ∧
      ((taskMachine code).exec t (advances n)).stack = [] := by
  obtain ⟨stack, hstack⟩ : ∃ stack, t.stack = stack := ⟨_, rfl⟩
  induction stack generalizing t with
  | nil => exact ⟨0, hgone, hstack⟩
  | cons g rest ih =>
    have hlive : t.live g = false := by
      unfold Tasks.live
      rw [hgone g]
    obtain ⟨n, hrest⟩ := @ih { t with stack := rest } hgone rfl
    refine ⟨n + 1, ?_⟩
    have hstep : (taskMachine code).step t .advance = ({ t with stack := rest }, []) :=
      advance_dead hstack hlive
    show (∀ i, ((taskMachine code).exec ((taskMachine code).step t .advance).1
      (advances n)).frames i = none) ∧ ((taskMachine code).exec
        ((taskMachine code).step t .advance).1 (advances n)).stack = []
    rw [hstep]
    exact hrest

theorem exec_advances (n : Nat) : (taskMachine code).exec t (advances (n + 1)) =
    (taskMachine code).exec (t.advance code).1 (advances n) := rfl

/-- Without the handle of the root, and without a chain, there is no frame. -/
theorem Nested.no_frames (h : Nested t []) (hhandle : t.handle = false) (i : Nat) :
    t.frames i = none := by
  cases hframe : t.frames i with
  | none => rfl
  | some ifr =>
    rcases h.owned i ifr hframe with hin | hin | ⟨_, _, _, hexists⟩
    · exact absurd hin List.not_mem_nil
    · exact absurd hin List.not_mem_nil
    · exact nomatch hhandle.symm.trans hexists

/-- **The unwinding comes to its end**: every frame is destroyed. -/
theorem unwinds {l : L} (hcode : NoCatch code) (h : Nested t ((f, fr) :: ps))
    (ht : Told t ((f, fr) :: ps) log) (harmed : Armed code t.frames) (hhandle : t.handle = false)
    (hstack : t.stack = f :: rest) (hpoint : fr.point = .running l)
    (hthrow : code l = .throw .canceled) (hidle : ∀ a ∈ ps, a.2.busy = false) : ∃ n,
    (∀ i, ((taskMachine code).exec t (advances n)).frames i = none) ∧
      ((taskMachine code).exec t (advances n)).stack = [] := by
  induction ps generalizing t f fr l log rest with
  | nil =>
    obtain ⟨hkeeps, hsame, _⟩ := throwing_root h ht hstack hpoint hthrow
    obtain ⟨n, hn⟩ := drains (hkeeps.1.no_frames (hsame.trans hhandle))
    refine ⟨n + 1, ?_⟩
    rw [exec_advances]
    exact hn
  | cons a ps ih =>
    obtain ⟨pf', next, hresumed, hstack', hkeeps, hsame, _⟩ :=
      throwing_child h ht hstack hpoint hthrow (hidle a List.mem_cons_self)
    have harmed' : Armed code (t.advance code).1.frames := harmed.advance hcode
    obtain ⟨l', hthrow', hkeeps', hstack'', hsame', _⟩ :=
      taking_step hkeeps.1 hkeeps.2 harmed' (hsame.trans hhandle) hstack' hresumed
    obtain ⟨n, hn⟩ := ih hkeeps'.1 hkeeps'.2 (harmed'.advance hcode)
      (hsame'.trans (hsame.trans hhandle)) hstack'' rfl hthrow'
      fun b hb => hidle b (List.mem_cons_of_mem _ hb)
    refine ⟨n + 1 + 1, ?_⟩
    rw [exec_advances, exec_advances]
    exact hn

end Unwinding

/-! ## 3. Every run -/

/-- No body is being executed, and the root has not ended. -/
def Suspended (t : Tasks L V X) : Prop := t.idle = true ∧ t.live 0 = true

/-- The coroutine is suspended at an awaiter. -/
def Pending (t : Tasks L V X) (f : Nat) : Prop :=
  ∃ fr next, t.frames f = some fr ∧ fr.point = .awaiting next

def Event.destroys (c : Nat) : Event V X O → Bool
  | .destroyed f => f = c
  | _ => false

section Runs

variable {code : L → Op L V X O} {t : Tasks L V X} {acts ps : List (Act L V X)} {f : Nat}
  {fr : Frame L V X} {log : List (Event V X O)} {rest : List Nat}

/-- Only the innermost task waits for a child that is done. -/
theorem Nested.awaits_head (h : Nested t acts) {a : Act L V X} (ha : a ∈ acts) {c : Nat}
    (hdone : Done t c) (haw : a.2.Awaits c) : ∃ ps, acts = a :: ps := by
  obtain ⟨lo, ps, rfl⟩ := List.append_of_mem ha
  rcases lo.eq_nil_or_concat' with rfl | ⟨lo', b, rfl⟩
  · exact ⟨ps, rfl⟩
  · have hlinks := h.links
    rw [List.append_assoc, List.singleton_append] at hlinks
    obtain ⟨_, ⟨_, _, next, hlink⟩, _⟩ := List.isChain_append_cons_cons.mp hlinks
    rcases hlink with ⟨hpoint, _⟩ | ⟨hpoint, _⟩
    · obtain ⟨next', haw | haw⟩ := haw
      · exact nomatch hpoint.symm.trans haw
      · exact nomatch hpoint.symm.trans haw
    · have hcb : c = b.1 := awaits_inj ⟨next, Or.inl hpoint⟩ haw
      have hmem : b ∈ lo' ++ [b] ++ a :: ps :=
        List.mem_append_left _ (List.mem_append_right _ List.mem_cons_self)
      exact absurd (List.mem_map_of_mem hmem) (hcb ▸ h.notMem hdone)

/-- What has been seen of a child: it has been called only, it has ended and its parent is about to go
    on, or its parent has gone on. -/
theorem told_child (h : Nested t acts) (ht : Told t acts log) (hhandle : t.handle = true) {c : Nat}
    (hpos : 0 < c) (hlt : c < t.next) : ∃ p r,
      story c log = [.called p c] ∨
      (story c log = [.called p c, .finished c r] ∧ ∃ fr ps, acts = (p, fr) :: ps ∧ fr.Awaits c ∧
        (t.frames c).bind Frame.value = some r) ∨
      story c log = [.called p c, .finished c r, .resumed p c r] ∨
      story c log = [.called p c, .finished c r, .resumed p c r, .destroyed c] := by
  cases hframe : t.frames c with
  | none =>
    obtain ⟨p, r, r', hr, hstory⟩ := ht.gone c hpos hlt hframe
    rw [hr hhandle] at hstory
    exact ⟨p, r, Or.inr (Or.inr (Or.inr hstory))⟩
  | some cf =>
    cases hopen : cf.done with
    | false =>
      obtain ⟨lo, ps, rfl⟩ := List.append_of_mem (h.mem_of_open hframe hopen)
      cases ps with
      | nil =>
        have hroot : c = 0 := h.root (c, cf) List.getLast?_concat
        exact absurd hroot (Nat.ne_of_gt hpos)
      | cons b ps =>
        have hcalled := ht.called
        rw [List.map_append, List.map_cons, List.map_cons] at hcalled
        obtain ⟨_, hstory, _⟩ := List.isChain_append_cons_cons.mp hcalled
        exact ⟨b.1, .error .canceled, Or.inl hstory⟩
    | true =>
      have hnot : c ∉ acts.map Prod.fst := by
        intro hmem
        obtain ⟨a, ha, rfl⟩ := List.mem_map.mp hmem
        have hhere := h.here a ha
        rw [hframe] at hhere
        cases hhere
        exact nomatch (h.open' a ha).symm.trans hopen
      rcases h.owned c cf hframe with hin | hin | ⟨hzero, _⟩
      · exact absurd hin hnot
      · obtain ⟨a, ha, hc⟩ := List.mem_flatMap.mp hin
        have hdone := (h.children a ha c hc).2.resolve_left hnot
        by_cases haw : a.2.Awaits c
        · obtain ⟨ps, rfl⟩ := h.awaits_head ha hdone haw
          obtain ⟨r, hvalue, hstory⟩ := ht.awaited a rfl c haw
          rw [hframe] at hvalue
          exact ⟨a.1, r, Or.inr (Or.inl ⟨hstory, a.2, ps, rfl, haw, hvalue⟩)⟩
        · obtain ⟨r, r', hr, hstory⟩ := ht.held a ha c hc hdone haw
          rw [hr hhandle] at hstory
          exact ⟨a.1, r, Or.inr (Or.inr (Or.inl hstory))⟩
      · exact absurd hzero (Nat.ne_of_gt hpos)

/-- What is left on the stack above a coroutine returns. -/
theorem clear_stack {l : List Nat} (hfilter : t.stack.filter t.live = f :: l) : ∃ n rest,
    (taskMachine code).exec t (advances n) = { t with stack := f :: rest } ∧
      (taskMachine code).outs t (advances n) = [] := by
  obtain ⟨stack, hstack⟩ : ∃ stack, t.stack = stack := ⟨_, rfl⟩
  induction stack generalizing t with
  | nil =>
    rw [hstack] at hfilter
    exact nomatch hfilter
  | cons g rest ih =>
    cases hlive : t.live g with
    | true =>
      rw [hstack, List.filter_cons_of_pos hlive] at hfilter
      obtain ⟨hg, _⟩ := List.cons.inj hfilter
      rw [hg] at hstack
      exact ⟨0, rest, by rw [← hstack]; rfl, rfl⟩
    | false =>
      rw [hstack, List.filter_cons_of_neg (by rw [hlive]; exact Bool.false_ne_true)] at hfilter
      obtain ⟨n, rest', hexec, houts⟩ := @ih { t with stack := rest } hfilter rfl
      have hstep : (taskMachine code).step t .advance = ({ t with stack := rest }, []) :=
        advance_dead hstack hlive
      refine ⟨n + 1, rest', ?_, ?_⟩
      · show (taskMachine code).exec ((taskMachine code).step t .advance).1 (advances n) = _
        rw [hstep]
        exact hexec
      · show ((taskMachine code).step t .advance).2 ++
          (taskMachine code).outs ((taskMachine code).step t .advance).1 (advances n) = []
        rw [hstep]
        exact houts

/-- A parent whose child has ended takes the result next. -/
theorem advance_takes {c : Nat} {r : Result V X} (hstack : t.stack = f :: rest)
    (hframe : t.frames f = some fr) (haw : fr.Awaits c) (hdone : Done t c)
    (hvalue : (t.frames c).bind Frame.value = some r)
    (hresume : awaitResume t.frames fr (some r) = some r) :
    (t.advance code).2 = [.resumed f c r] := by
  have hcollect : ∀ next, (t.collect (O := O) f fr c next).2 = [.resumed f c r] := by
    intro next
    unfold Tasks.collect
    rw [hvalue, hresume]
  obtain ⟨next, hpoint | hpoint⟩ := haw
  · obtain ⟨cf, _, hcframe, hfinal, _⟩ := hdone
    unfold Tasks.advance
    rw [hstack]
    dsimp only
    rw [hframe]
    dsimp only
    rw [hpoint]
    dsimp only
    rw [hcframe]
    dsimp only
    rw [if_pos (done_of_final hfinal)]
    exact hcollect next
  · rw [advance_resumed hstack hframe hpoint]
    exact hcollect next

/-- When a child has ended, its parent goes on with the result, as soon as what is left on the stack
    above it has returned. -/
theorem taken (h : Nested t acts) (ht : Told t acts log) {p c : Nat} {r : Result V X}
    (hhandle : t.handle = true) (hstory : story c log = [.called p c, .finished c r]) :
    ∃ n, (taskMachine code).outs t (advances n) = [.resumed p c r] := by
  have hlt : c < t.next := by
    by_contra hle
    rw [ht.unborn c (Nat.le_of_not_lt hle)] at hstory
    exact nomatch hstory
  have hpos : 0 < c := by
    refine Nat.pos_of_ne_zero fun hzero => ?_
    subst hzero
    by_cases hne : acts = []
    · obtain ⟨q, hq⟩ := ht.ended hne
      rw [hstory] at hq
      exact nomatch hq
    · have hlast := List.getLast?_eq_some_getLast hne
      have hroot := ht.root 0 (by rw [List.getLast?_map, hlast, ← h.root _ hlast]; rfl)
      rw [hroot] at hstory
      exact nomatch hstory
  obtain ⟨p', r', hcase⟩ := told_child h ht hhandle hpos hlt
  rw [hstory] at hcase
  rcases hcase with hcase | ⟨hcase, fr, ps, rfl, haw, hvalue⟩ | hcase | hcase
  · exact nomatch hcase
  · cases hcase
    have hdone := ((h.innermost _ rfl).2 c haw).2
    have hframe := h.here (p, fr) List.mem_cons_self
    have hbusy : fr.busy = true := by
      unfold Frame.busy
      obtain ⟨next, hpoint | hpoint⟩ := haw <;> rw [hpoint]
    have hfilter := h.stack
    rw [List.filter_cons_of_pos (by exact hbusy), List.map_cons] at hfilter
    obtain ⟨n, rest, hexec, houts⟩ := @clear_stack _ _ _ _ code _ _ _ hfilter
    have hresume : awaitResume t.frames fr (some r) = some r := by
      rw [h.awaitResume_eq List.mem_cons_self, if_pos hhandle]
    refine ⟨n + 1, ?_⟩
    have hsnoc : (advances (n + 1) : List (TaskInput V X)) = advances n ++ [.advance] :=
      List.replicate_succ'
    rw [hsnoc, Machine.outs_snoc, houts, hexec]
    exact advance_takes rfl hframe haw hdone hvalue hresume
  · exact nomatch hcase
  · exact nomatch hcase

/-! ### The handle, and the numbers that have been given out -/

/-- A step neither destroys the handle of the root nor takes a number back. -/
def Grows (t t' : Tasks L V X) : Prop := t'.handle = t.handle ∧ t.next ≤ t'.next

theorem grows_same {t' : Tasks L V X} (hhandle : t'.handle = t.handle) (hnext : t'.next = t.next) :
    Grows t t' := ⟨hhandle, Nat.le_of_eq hnext.symm⟩

theorem finish_grows (r : Result V X) : Grows t (t.finish (O := O) f fr rest r).1 := by
  refine grows_same (finish_handle r) ?_
  unfold Tasks.finish
  dsimp only
  split
  · rfl
  · split
    · rfl
    · split <;> rfl

theorem collect_grows (c : Nat) (next : Result V X → L) :
    Grows t (t.collect (O := O) f fr c next).1 := by
  unfold Tasks.collect
  split
  · exact grows_same rfl rfl
  · exact grows_same rfl rfl

theorem perform_grows (op : Op L V X O) : Grows t (t.perform f fr rest op).1 := by
  cases op with
  | exec o next => exact grows_same rfl rfl
  | awaitReady r next =>
    unfold Tasks.perform
    dsimp only
    split
    · exact grows_same rfl rfl
    · exact grows_same rfl rfl
  | await next => exact grows_same rfl rfl
  | call child next => exact ⟨rfl, Nat.le_succ _⟩
  | endScope next =>
    unfold Tasks.perform
    dsimp only
    split
    · exact grows_same rfl rfl
    · exact grows_same rfl rfl
  | ret v => exact finish_grows _
  | throw e => exact finish_grows _

theorem advance_grows : Grows t (t.advance code).1 := by
  unfold Tasks.advance
  split
  · exact grows_same rfl rfl
  · split
    · exact grows_same rfl rfl
    · split
      · split
        · exact grows_same rfl rfl
        · exact finish_grows _
        · exact grows_same rfl rfl
      · exact perform_grows _
      · split
        · exact grows_same rfl rfl
        · dsimp only
          split
          · exact collect_grows _ _
          · exact grows_same rfl rfl
      · exact collect_grows _ _
      · exact grows_same rfl rfl
      · exact grows_same rfl rfl
      · exact grows_same rfl rfl

theorem resume_grows (r : Result V X) : Grows t (t.resume (O := O) f r).1 := by
  unfold Tasks.resume
  split
  · exact grows_same rfl rfl
  · split
    · split
      · exact grows_same rfl rfl
      · exact grows_same rfl rfl
    · exact grows_same rfl rfl

theorem armed_run (hcode : NoCatch code) (l : L) (is : List (TaskInput V X)) :
    Armed code ((taskMachine code).exec (Tasks.start l) is).frames := by
  refine Machine.invariant (P := fun t : Tasks L V X => Armed code t.frames)
    (fun t i ht => ht.step hcode i) (fun f fr next hframe hnext => ?_) is
  have hinitial : (if f = 0 then some (Frame.new l none) else none : Option (Frame L V X)) =
      some fr := hframe
  split at hinitial
  · cases hinitial
    exact nomatch hnext
  · exact nomatch hinitial

theorem step_next (i : TaskInput V X) : t.next ≤ ((taskMachine code).step t i).1.next := by
  cases i with
  | advance => exact advance_grows.2
  | resume f r => exact (resume_grows r).2
  | destroy =>
    show t.next ≤ (if t.handle && t.idle then
      ({ t with frames := (destroyHandle t.frames 0).1, handle := false },
        (destroyHandle t.frames 0).2) else ((t, []) : Tasks L V X × List (Event V X O))).1.next
    split
    · exact Nat.le_refl _
    · exact Nat.le_refl _

/-- No number is taken back. -/
theorem next_run (is : List (TaskInput V X)) : t.next ≤ ((taskMachine code).exec t is).next :=
  Machine.invariant (P := fun t' : Tasks L V X => t.next ≤ t'.next)
    (fun _ i ht => Nat.le_trans ht (step_next i)) (Nat.le_refl _) is

/-- A task that has been called, and whose frame is gone, has been destroyed once. -/
theorem destroyed_once (ht : Told t [] log) (hgone : ∀ i, t.frames i = none) {c : Nat}
    (hlt : c < t.next) : log.countP (Event.destroys c) = 1 := by
  have hstory : log.countP (Event.destroys c) = (story c log).countP (Event.destroys c) := by
    unfold story
    rw [List.countP_filter]
    refine List.countP_congr fun e _ => ?_
    cases e <;> simp [Event.destroys, Event.about]
  rw [hstory]
  by_cases hpos : 0 < c
  · obtain ⟨p, r, r', _, hc⟩ := ht.gone c hpos hlt (hgone c)
    rw [hc]
    simp [Event.destroys]
  · have hzero : c = 0 := Nat.eq_zero_of_not_pos hpos
    obtain ⟨r, hc⟩ := ht.ended rfl
    rw [hgone 0] at hc
    rw [hzero, hc]
    simp [Event.destroys]

/-! ### The destruction of the handle -/

theorem idle_acts (h : Nested t acts) (hidle : t.idle = true) : ∀ a ∈ acts, a.2.busy = false := by
  have hdead : t.stack.filter t.live = [] := by
    refine List.filter_eq_nil_iff.mpr fun g hg hlive => ?_
    have hnot := List.all_eq_true.mp hidle g hg
    rw [hlive] at hnot
    exact nomatch hnot
  rw [h.stack, List.map_eq_nil_iff] at hdead
  intro a ha
  exact Bool.eq_false_iff.mpr (List.filter_eq_nil_iff.mp hdead a ha)

/-- The innermost task of a chain that is suspended waits for an awaiter. -/
theorem innermost_awaits (h : Nested t ((f, fr) :: ps)) (hidle : fr.busy = false) :
    ∃ next, fr.point = .awaiting next := by
  have hinner := h.innermost (f, fr) rfl
  have hopen := h.open' (f, fr) List.mem_cons_self
  unfold Frame.busy at hidle
  unfold Frame.done at hopen
  cases hpoint : fr.point with
  | awaiting next => exact ⟨next, rfl⟩
  | joined c next => exact absurd hpoint (hinner.1 c next)
  | final =>
    dsimp only at hopen
    rw [hpoint] at hopen
    exact nomatch hopen
  | initial l =>
    rw [hpoint] at hidle
    exact nomatch hidle
  | running l =>
    rw [hpoint] at hidle
    exact nomatch hidle
  | starting c next =>
    rw [hpoint] at hidle
    exact nomatch hidle
  | resumed c next =>
    rw [hpoint] at hidle
    exact nomatch hidle

theorem pending_unique (h : Nested t acts) (hs : Suspended t) :
    ∃ f, Pending t f ∧ ∀ g, Pending t g → g = f := by
  cases acts with
  | nil =>
    have hlive := hs.2
    unfold Tasks.live at hlive
    cases hframe : t.frames 0 with
    | none =>
      rw [hframe] at hlive
      exact nomatch hlive
    | some rf =>
      rw [hframe] at hlive
      have hopen : rf.done = false := by simpa using hlive
      exact absurd (h.mem_of_open hframe hopen) List.not_mem_nil
  | cons a ps =>
    obtain ⟨f, fr⟩ := a
    obtain ⟨next, hpoint⟩ := innermost_awaits h (idle_acts h hs.1 (f, fr) List.mem_cons_self)
    refine ⟨f, ⟨fr, next, h.here (f, fr) List.mem_cons_self, hpoint⟩, fun g hg => ?_⟩
    obtain ⟨gr, next', hframe, hawaiting⟩ := hg
    obtain ⟨ps', hacts⟩ := h.awaiting_head hframe hawaiting
    exact (congrArg Prod.fst (List.cons.inj hacts).1).symm

/-- The handle of the root is destroyed, and its tasks wait to be unwound. -/
theorem destroyed_waits (h : Nested t acts) (ht : Told t acts log) (hhandle : t.handle = true)
    (hs : Suspended t) : ∃ acts', KeepsAs log ((taskMachine code).step t .destroy) acts' ∧
      ((taskMachine code).step t .destroy).1.handle = false ∧
      ((taskMachine code).step t .destroy).2 = [] ∧ (∀ a ∈ acts', a.2.busy = false) ∧
      ∀ f, Pending t f → Pending ((taskMachine code).step t .destroy).1 f := by
  have hidle := idle_acts h hs.1
  obtain ⟨f, hf, _⟩ := pending_unique h hs
  have hne : acts ≠ [] := by
    obtain ⟨fr, next, hframe, hpoint⟩ := hf
    obtain ⟨ps, rfl⟩ := h.awaiting_head hframe hpoint
    exact List.cons_ne_nil _ _
  obtain ⟨lo, ⟨i, rf⟩, rfl⟩ := (acts.eq_nil_or_concat').resolve_left hne
  obtain rfl : i = 0 := h.root (i, rf) List.getLast?_concat
  obtain ⟨hstep, hkeeps⟩ := cancel_keeps code h ht (by rw [hhandle, hs.1]; rfl)
  refine ⟨_, hkeeps, by rw [hstep], by rw [hstep], fun a ha => ?_, fun g hg => ?_⟩
  · rcases List.mem_append.mp ha with ha | ha
    · exact hidle a (List.mem_append_left _ ha)
    · rw [List.mem_singleton.mp ha]
      exact hidle (0, rf) (List.mem_append_right _ List.mem_cons_self)
  · obtain ⟨gr, next, hframe, hpoint⟩ := hg
    rw [hstep]
    by_cases hg0 : g = 0
    · subst hg0
      have hhere := h.here (0, rf) (List.mem_append_right _ List.mem_cons_self)
      rw [hframe] at hhere
      cases hhere
      refine ⟨{ rf with canceled := true }, next, ?_, hpoint⟩
      show Function.update t.frames 0 _ 0 = _
      exact Function.update_self _ _ _
    · exact ⟨gr, next, (Function.update_of_ne hg0 _ _).trans hframe, hpoint⟩

/-- The resumption that follows unwinds them. -/
theorem resumed_unwinds (hcode : NoCatch code) (h : Nested t acts) (ht : Told t acts log)
    (harmed : Armed code t.frames) (hhandle : t.handle = false)
    (hidle : ∀ a ∈ acts, a.2.busy = false) (hpending : Pending t f) (r : Result V X) : ∃ n,
    (∀ i, ((taskMachine code).exec t (.resume f r :: advances n)).frames i = none) ∧
      ((taskMachine code).exec t (.resume f r :: advances n)).stack = [] := by
  obtain ⟨fr, next, hframe, hpoint⟩ := hpending
  obtain ⟨ps, rfl⟩ := h.awaiting_head hframe hpoint
  obtain ⟨r', hstep, hkeeps, hr'⟩ := wake_keeps h ht hpoint r
  have hthrow : code (next r') = .throw .canceled := by
    rw [hr' hhandle]
    exact harmed f fr next hframe (by rw [hpoint]; rfl)
  have harmed' : Armed code (t.resume (O := O) f r).1.frames :=
    harmed.step hcode (.resume f r)
  rw [hstep] at hkeeps harmed'
  obtain ⟨n, hn⟩ := unwinds hcode hkeeps.1 hkeeps.2 harmed' hhandle rfl rfl hthrow
    fun a ha => hidle a (List.mem_cons_of_mem _ ha)
  refine ⟨n, ?_⟩
  have hexec : (taskMachine code).exec t (.resume f r :: advances n) =
      (taskMachine code).exec (t.resume (O := O) f r).1 (advances n) := rfl
  rw [hexec, hstep]
  exact hn

end Runs

/-- What happens when the handle of the root is destroyed: one task waits for an awaiter, nothing but
    unwinding follows, and its resumption has each frame destroyed once. -/
structure Unwound (code : L → Op L V X O) (t : Tasks L V X) (log : List (Event V X O)) : Prop where
  alone : ∃ f, Pending t f ∧ ∀ g, Pending t g → g = f
  silent : ∀ js, ∀ e ∈ (taskMachine code).outs t (.destroy :: js), e.Unwinds
  freed : ∀ f r, Pending t f → ∃ n,
    (∀ i, ((taskMachine code).exec t (.destroy :: .resume f r :: advances n)).frames i = none) ∧
    ((taskMachine code).exec t (.destroy :: .resume f r :: advances n)).stack = [] ∧
    ∀ c < t.next, (log ++ (taskMachine code).outs t
      (.destroy :: .resume f r :: advances n)).countP (Event.destroys c) = 1

/-- **When it is destroyed** while the tasks are suspended, they are unwound. -/
theorem chain_unwound {code : L → Op L V X O} (hcode : NoCatch code) (l : L) (is : List (TaskInput V X))
    (hhandle : ((taskMachine code).exec (Tasks.start l) is).handle = true)
    (hs : Suspended ((taskMachine code).exec (Tasks.start l) is)) :
    Unwound code ((taskMachine code).exec (Tasks.start l) is)
      ((taskMachine code).outs (Tasks.start l) is) := by
  obtain ⟨acts, hnested, htold⟩ := told_run code l is
  have harmed := armed_run hcode l is
  obtain ⟨acts', (hkeeps : KeepsAs _ ((taskMachine code).step _ .destroy) acts'), hgone, hevs,
    hidle, hpending⟩ := destroyed_waits hnested htold hhandle hs
  have harmed' := harmed.step hcode .destroy
  refine ⟨pending_unique hnested hs, fun js e he => ?_, fun f r hf => ?_⟩
  · rw [Machine.outs_cons, hevs, List.nil_append] at he
    exact unwinding_run hcode js hkeeps.1 hkeeps.2 harmed' hgone (.waiting hidle) e he
  · obtain ⟨n, hframes, hstack⟩ :=
      resumed_unwinds hcode hkeeps.1 hkeeps.2 harmed' hgone hidle (hpending f hf) r
    refine ⟨n, hframes, hstack, fun c hlt => ?_⟩
    obtain ⟨acts'', hnested'', htold''⟩ :=
      told_run code l (is ++ .destroy :: .resume f r :: advances n)
    rw [Machine.exec_append] at hnested'' htold''
    rw [Machine.outs_append] at htold''
    cases acts'' with
    | nil => exact destroyed_once htold'' hframes (Nat.lt_of_lt_of_le hlt (next_run _))
    | cons a acts'' =>
      have hhere := hnested''.here a List.mem_cons_self
      exact nomatch (hframes a.1).symm.trans hhere

end Veridie.Utils
