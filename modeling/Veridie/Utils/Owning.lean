/-
  File:      Veridie/Utils/Owning.lean
  Subject:   What an owner makes of its root tasks, in every run: the coroutines of each do what they
             do under a handle of their own, and when the owner is destroyed, all of them are unwound.

  * `RootRun` -- a root task has got where a run of its coroutines alone gets;
  * `Kept`, `kept_step`, `kept_run` -- so have all of an owner, in every run;
  * `Gone`, `gone_step` -- without the owner there is nothing but unwinding, in all of them;
  * `nested_tasks` -- nested tasks, alone and under an owner.
-/
import Veridie.Utils.Owner

namespace Veridie.Utils

open Veridie.Lib

variable {L V X O : Type}

/-! ## 1. One root task -/

/-- What has been seen of a root task. -/
def tasksLog (k : Nat) (log : List (OwnerEvent V X O)) : List (Event V X O) :=
  log.filterMap fun e =>
    match e with
    | .task j ev => if j = k then some ev else none
    | _ => none

/-- A coroutine that was dropped before it was started. -/
def Dropped (r : Root L V X) : Prop :=
  ∃ l, r.tasks = ((Root.called l : Root L V X).release (O := O)).1.tasks

/-- The coroutines of a root task have done what they do in a run of their own, or never started. -/
def RootRun (code : L → Op L V X O) (r : Root L V X) (log : List (Event V X O)) : Prop :=
  (∃ l is, r.tasks = (taskMachine code).exec (Tasks.start l) is ∧
    log = (taskMachine code).outs (Tasks.start l) is) ∨ (Dropped (O := O) r ∧ log = [])

section Root

variable {code : L → Op L V X O} {r : Root L V X} {log : List (Event V X O)} {k : Nat}
  {elog evs : List (OwnerEvent V X O)}

theorem tasksLog_append (k : Nat) (log evs : List (OwnerEvent V X O)) :
    tasksLog k (log ++ evs) = tasksLog k log ++ tasksLog k evs := List.filterMap_append

theorem tasksLog_self (k : Nat) (evs : List (Event V X O)) : tasksLog k (evs.map (.task k)) = evs := by
  unfold tasksLog
  rw [List.filterMap_map]
  have hsome : ((fun e : OwnerEvent V X O => match e with
      | .task j ev => if j = k then some ev else none
      | _ => none) ∘ OwnerEvent.task k) = some := funext fun ev => if_pos rfl
  rw [hsome, List.filterMap_some]

theorem tasksLog_other {j : Nat} (hne : j ≠ k) (evs : List (Event V X O)) :
    tasksLog k (evs.map (.task j)) = [] := by
  unfold tasksLog
  rw [List.filterMap_map]
  refine List.filterMap_eq_nil_iff.mpr fun ev _ => ?_
  exact if_neg hne

/-- What is dropped stays as it is. -/
theorem Dropped.step (h : Dropped (O := O) r) (i : TaskInput V X) :
    (taskMachine code).step r.tasks i = (r.tasks, []) := by
  obtain ⟨l, he⟩ := h
  rw [he]
  cases i with
  | advance => rfl
  | destroy => rfl
  | resume f res =>
    show Tasks.resume _ f res = _
    unfold Tasks.resume Root.release Root.called Tasks.start destroyHandle
    dsimp only
    by_cases hf : f = 0
    · subst hf
      rfl
    · simp [hf, Frame.new, Frame.done, Function.update_of_ne]

theorem RootRun.step (h : RootRun code r log) (i : TaskInput V X) :
    RootRun code { r with tasks := ((taskMachine code).step r.tasks i).1 }
      (log ++ ((taskMachine code).step r.tasks i).2) := by
  rcases h with ⟨l, is, hexec, houts⟩ | ⟨hdropped, hlog⟩
  · refine Or.inl ⟨l, is ++ [i], ?_, ?_⟩
    · rw [Machine.exec_snoc, ← hexec]
    · rw [Machine.outs_snoc, ← hexec, ← houts]
  · rw [hdropped.step i, List.append_nil]
    exact Or.inr ⟨hdropped, hlog⟩

/-- A root task that has ended, and whose handle exists: nothing is being executed, and when the
    handle is destroyed no frame is left. -/
theorem RootRun.ended (h : RootRun code r log) (hhandle : r.tasks.handle = true)
    (hended : r.tasks.live 0 = false) : r.tasks.idle = true ∧
      ∀ i, (Root.release (O := O) r).1.tasks.frames i = none := by
  rcases h with ⟨l, is, hexec, _⟩ | ⟨⟨l, hdropped⟩, _⟩
  · obtain ⟨acts, hnested, _⟩ := told_run code l is
    rw [← hexec] at hnested
    have hnil : acts = [] := by
      by_contra hne
      obtain ⟨fr, hroot⟩ := hnested.root_mem hne
      exact nomatch (live_eq (hnested.here _ hroot) (hnested.open' _ hroot)).symm.trans hended
    subst hnil
    have hstack := hnested.stack
    rw [List.filter_nil, List.map_nil] at hstack
    refine ⟨List.all_eq_true.mpr fun f hf => ?_, fun i => ?_⟩
    · have hdead := List.filter_eq_nil_iff.mp hstack f hf
      simpa using hdead
    · have hroot : Done r.tasks 0 := by
        obtain ⟨fr, hframe⟩ := Option.isSome_iff_exists.mp (hnested.handled rfl hhandle)
        rcases hnested.owned 0 fr hframe with hin | hin | ⟨_, _, hdone, _⟩
        · exact absurd hin List.not_mem_nil
        · exact absurd hin List.not_mem_nil
        · exact hdone
      show (destroyHandle (O := O) r.tasks.frames 0).1 i = none
      rw [destroyHandle_eq hroot]
      show Function.update r.tasks.frames 0 none i = none
      by_cases hi : i = 0
      · rw [hi, Function.update_self]
      · rw [Function.update_of_ne hi]
        cases hframe : r.tasks.frames i with
        | none => rfl
        | some fr =>
          rcases hnested.owned i fr hframe with hin | hin | ⟨hzero, _⟩
          · exact absurd hin List.not_mem_nil
          · exact absurd hin List.not_mem_nil
          · exact absurd hzero hi
  · rw [hdropped] at hhandle
    exact nomatch hhandle

/-- The destructor of a handle is the machine's. -/
theorem root_release_step (code : L → Op L V X O) (hhandle : r.tasks.handle = true) (hidle : r.tasks.idle = true) :
    (taskMachine code).step r.tasks .destroy =
      ((Root.release (O := O) r).1.tasks, (Root.release (O := O) r).2) := by
  have hboth : (r.tasks.handle && r.tasks.idle) = true := by rw [hhandle, hidle, Bool.and_self]
  exact if_pos hboth

/-- Neither the code nor an awaiter touches the handle. -/
theorem step_handle {t : Tasks L V X} {i : TaskInput V X} (hi : i ≠ .destroy) :
    ((taskMachine code).step t i).1.handle = t.handle := by
  cases i with
  | advance => exact advance_grows.1
  | resume f res => exact (resume_grows res).1
  | destroy => exact absurd rfl hi

/-- Nothing happens where there is no frame. -/
theorem step_gone {t : Tasks L V X} (hgone : ∀ i, t.frames i = none) {i : TaskInput V X}
    (hi : i ≠ .destroy) : (∀ j, ((taskMachine code).step t i).1.frames j = none) ∧
      ((taskMachine code).step t i).2 = [] := by
  cases i with
  | advance =>
    cases hstack : t.stack with
    | nil =>
      have hstep : (taskMachine code).step t .advance = (t, []) := by
        show t.advance code = _
        unfold Tasks.advance
        rw [hstack]
      rw [hstep]
      exact ⟨hgone, rfl⟩
    | cons f rest =>
      have hlive : t.live f = false := by
        unfold Tasks.live
        rw [hgone f]
      have hstep : (taskMachine code).step t .advance = ({ t with stack := rest }, []) :=
        advance_dead hstack hlive
      rw [hstep]
      exact ⟨hgone, rfl⟩
  | resume f res =>
    have hstep : (taskMachine code).step t (.resume f res) = (t, []) :=
      resume_other (fun fr next hframe => nomatch (hgone f).symm.trans hframe) res
    rw [hstep]
    exact ⟨hgone, rfl⟩
  | destroy => exact absurd rfl hi

end Root

/-! ## 2. What the owner does to them -/

section Owner

variable {code : L → Op L V X O} {roots : Nat → Option (Root L V X)} {tasks : List Nat} {k : Nat}

/-- `EnsureNoException` throws an exception once, or does nothing. -/
theorem ensure_cases (r : Root L V X) :
    (∃ e, r.ensureNoException = ({ r with taken := true }, some e)) ∨
      r.ensureNoException = (r, none) := by
  unfold Root.ensureNoException
  split
  · exact Or.inr rfl
  · split
    · exact Or.inr rfl
    · split
      · exact Or.inl ⟨_, rfl⟩
      · exact Or.inr rfl

/-- `RethrowExceptions` throws the exception of one of the tasks, or finds none. -/
theorem rethrow_cases (roots : Nat → Option (Root L V X)) (tasks : List Nat) :
    (∃ k r e, k ∈ tasks ∧ roots k = some r ∧ r.ensureNoException = ({ r with taken := true }, some e) ∧
      rethrowExceptions roots tasks =
        (Function.update roots k (some { r with taken := true }), some (k, e))) ∨
    (rethrowExceptions roots tasks = (roots, none) ∧
      ∀ k ∈ tasks, ∀ r, roots k = some r → r.ensureNoException.2 = none) := by
  induction tasks with
  | nil => exact Or.inr ⟨rfl, fun _ hk => absurd hk List.not_mem_nil⟩
  | cons k tasks ih =>
    unfold rethrowExceptions
    cases hroot : roots k with
    | none =>
      dsimp only
      rcases ih with ⟨j, r, e, hj, hr, hthrow, heq⟩ | ⟨heq, hnone⟩
      · exact Or.inl ⟨j, r, e, List.mem_cons_of_mem k hj, hr, hthrow, heq⟩
      · refine Or.inr ⟨heq, fun j hj r hr => ?_⟩
        rcases List.mem_cons.mp hj with rfl | hj
        · exact nomatch hroot.symm.trans hr
        · exact hnone j hj r hr
    | some r =>
      dsimp only
      rcases ensure_cases r with ⟨e, hthrow⟩ | hquiet
      · rw [hthrow]
        exact Or.inl ⟨k, r, e, List.mem_cons_self, hroot, hthrow, rfl⟩
      · rw [hquiet]
        rcases ih with ⟨j, r', e, hj, hr, hthrow, heq⟩ | ⟨heq, hnone⟩
        · exact Or.inl ⟨j, r', e, List.mem_cons_of_mem k hj, hr, hthrow, heq⟩
        · refine Or.inr ⟨heq, fun j hj r' hr => ?_⟩
          rcases List.mem_cons.mp hj with rfl | hj
          · cases hroot.symm.trans hr
            rw [hquiet]
          · exact hnone j hj r' hr

/-- The handles of some root tasks, each destroyed once. -/
theorem releaseAll_spec (roots : Nat → Option (Root L V X)) {gone : List Nat} (hnodup : gone.Nodup) :
    (∀ k, k ∉ gone → (releaseAll (O := O) roots gone).1 k = roots k ∧
      tasksLog k (releaseAll (O := O) roots gone).2 = []) ∧
    (∀ k ∈ gone, ∀ r, roots k = some r →
      (releaseAll (O := O) roots gone).1 k = some (r.release (O := O)).1 ∧
      tasksLog k (releaseAll (O := O) roots gone).2 = r.release.2) ∧
    (∀ k, roots k = none → (releaseAll (O := O) roots gone).1 k = none) ∧
    ∀ e ∈ (releaseAll (O := O) roots gone).2, ∃ k ev, e = .task k ev := by
  induction gone generalizing roots with
  | nil =>
    exact ⟨fun _ _ => ⟨rfl, rfl⟩, fun _ hk => absurd hk List.not_mem_nil, fun _ h => h,
      fun _ he => absurd he List.not_mem_nil⟩
  | cons j gone ih =>
    obtain ⟨hnot, hnodup⟩ := List.nodup_cons.mp hnodup
    unfold releaseAll
    cases hroot : roots j with
    | none =>
      obtain ⟨hout, hin, hnone, hevs⟩ := ih roots hnodup
      refine ⟨fun k hk => hout k fun hmem => hk (List.mem_cons_of_mem j hmem), fun k hk r hr => ?_,
        hnone, hevs⟩
      rcases List.mem_cons.mp hk with rfl | hk
      · exact nomatch hroot.symm.trans hr
      · exact hin k hk r hr
    | some rj =>
      dsimp only
      obtain ⟨hout, hin, hnone, hevs⟩ := ih
        (Function.update roots j (some (rj.release (O := O)).1)) hnodup
      refine ⟨fun k hk => ?_, fun k hk r hr => ?_, fun k hk => ?_, fun e he => ?_⟩
      · have hkj : k ≠ j := fun he => hk (he ▸ List.mem_cons_self)
        obtain ⟨hsame, hlog⟩ := hout k fun hmem => hk (List.mem_cons_of_mem j hmem)
        rw [tasksLog_append, tasksLog_other (fun he => hkj he.symm), hlog]
        exact ⟨hsame.trans (Function.update_of_ne hkj _ _), rfl⟩
      · rw [tasksLog_append]
        rcases List.mem_cons.mp hk with rfl | hk
        · cases hroot.symm.trans hr
          obtain ⟨hsame, hlog⟩ := hout k hnot
          rw [tasksLog_self, hlog, List.append_nil]
          exact ⟨hsame.trans (Function.update_self _ _ _), rfl⟩
        · have hkj : k ≠ j := fun he => hnot (he ▸ hk)
          obtain ⟨hnew, hlog⟩ := hin k hk r ((Function.update_of_ne hkj _ _).trans hr)
          rw [tasksLog_other (fun he => hkj he.symm), hlog]
          exact ⟨hnew, rfl⟩
      · have hkj : k ≠ j := fun he => nomatch (he ▸ hk).symm.trans hroot
        exact hnone k ((Function.update_of_ne hkj _ _).trans hk)
      · rcases List.mem_append.mp he with he | he
        · obtain ⟨ev, _, rfl⟩ := List.mem_map.mp he
          exact ⟨j, ev, rfl⟩
        · exact hevs e he

end Owner

/-! ## 3. Every run -/

/-- Nothing will be seen of a root task any more. -/
def Loose (r : Root L V X) : Prop :=
  r.tasks.handle = false ∧ (Dropped (O := O) r ∨ ∀ i, r.tasks.frames i = none)

/-- The coroutines of every root task have done what they do in a run of their own; the owner holds
    the handles of those that may still do something. -/
structure Kept (code : L → Op L V X O) (o : Owner L V X) (log : List (OwnerEvent V X O)) : Prop where
  runs : ∀ k r, o.roots k = some r → RootRun code r (tasksLog k log)
  unborn : ∀ k, o.next ≤ k → o.roots k = none
  silent : ∀ k, o.roots k = none → tasksLog k log = []
  held : ∀ k ∈ o.tasks, ∃ r, o.roots k = some r ∧ r.tasks.handle = true
  loose : o.alive = true → ∀ k r, o.roots k = some r → k ∉ o.tasks → Loose (O := O) r
  nodup : o.tasks.Nodup

section Runs

variable {code : L → Op L V X O} {nested : L → Option L} {void : V} {o : Owner L V X}
  {log : List (OwnerEvent V X O)} {k : Nat} {r : Root L V X}

theorem kept_new : Kept code (Owner.new : Owner L V X) [] where
  runs := fun _ _ h => nomatch h
  unborn := fun _ _ => rfl
  silent := fun _ _ => rfl
  held := fun _ hk => absurd hk List.not_mem_nil
  loose := fun _ _ _ h => nomatch h
  nodup := List.nodup_nil

/-- A task that the owner holds has been given a number. -/
theorem Kept.lt_next (h : Kept code o log) (hroot : o.roots k = some r) : k < o.next := by
  by_contra hle
  exact nomatch (h.unborn k (Nat.le_of_not_lt hle)).symm.trans hroot

theorem Loose.step (h : Loose (O := O) r) {i : TaskInput V X} (hi : i ≠ .destroy) :
    Loose (O := O) { r with tasks := ((taskMachine code).step r.tasks i).1 } := by
  refine ⟨(step_handle hi).trans h.1, ?_⟩
  rcases h.2 with hdropped | hgone
  · rw [hdropped.step i]
    exact Or.inl hdropped
  · exact Or.inr (step_gone hgone hi).1

/-- The coroutines of a root task do something. -/
theorem Kept.tasks (h : Kept code o log) (hroot : o.roots k = some r) {i : TaskInput V X}
    (hi : i ≠ .destroy) :
    Kept code (o.setTasks k r ((taskMachine code).step r.tasks i).1)
      (log ++ ((taskMachine code).step r.tasks i).2.map (.task k)) := by
  have hself : (o.setTasks k r ((taskMachine code).step r.tasks i).1).roots k =
      some { r with tasks := ((taskMachine code).step r.tasks i).1 } := Function.update_self _ _ _
  have hother : ∀ j, j ≠ k →
      (o.setTasks k r ((taskMachine code).step r.tasks i).1).roots j = o.roots j :=
    fun j hj => Function.update_of_ne hj _ _
  refine ⟨fun j rj hj => ?_, fun j hj => ?_, fun j hj => ?_, fun j hj => ?_, fun halive j rj hj hnot => ?_,
    h.nodup⟩
  · rw [tasksLog_append]
    by_cases hjk : j = k
    · subst hjk
      rw [hself] at hj
      cases hj
      rw [tasksLog_self]
      exact (h.runs j r hroot).step i
    · rw [hother j hjk] at hj
      rw [tasksLog_other (fun he => hjk he.symm), List.append_nil]
      exact h.runs j rj hj
  · have hjk : j ≠ k := Nat.ne_of_gt (Nat.lt_of_lt_of_le (h.lt_next hroot) hj)
    exact (hother j hjk).trans (h.unborn j hj)
  · have hjk : j ≠ k := by
      intro he
      rw [he, hself] at hj
      exact nomatch hj
    rw [hother j hjk] at hj
    rw [tasksLog_append, tasksLog_other (fun he => hjk he.symm), List.append_nil]
    exact h.silent j hj
  · obtain ⟨rj, hrj, hhandle⟩ := h.held j hj
    by_cases hjk : j = k
    · subst hjk
      cases hroot.symm.trans hrj
      exact ⟨_, hself, (step_handle hi).trans hhandle⟩
    · exact ⟨rj, (hother j hjk).trans hrj, hhandle⟩
  · by_cases hjk : j = k
    · subst hjk
      rw [hself] at hj
      cases hj
      exact (h.loose halive j r hroot hnot).step hi
    · rw [hother j hjk] at hj
      exact h.loose halive j rj hj hnot

/-- An exception is thrown, and taken from its task. -/
theorem Kept.threw (h : Kept code o log) (hroot : o.roots k = some r) (e : Thrown X) :
    Kept code { o with roots := Function.update o.roots k (some { r with taken := true }) }
      (log ++ [.threw k e]) := by
  have hsame : ∀ j rj, Function.update o.roots k (some { r with taken := true }) j = some rj →
      ∃ rj', o.roots j = some rj' ∧ rj.tasks = rj'.tasks := by
    intro j rj hj
    by_cases hjk : j = k
    · rw [hjk, Function.update_self] at hj
      cases hj
      exact ⟨r, hjk ▸ hroot, rfl⟩
    · rw [Function.update_of_ne hjk] at hj
      exact ⟨rj, hj, rfl⟩
  have hnone : ∀ j, Function.update o.roots k (some { r with taken := true }) j = none ↔
      o.roots j = none := by
    intro j
    by_cases hjk : j = k
    · rw [hjk, Function.update_self, hroot]
      exact iff_of_false (Option.some_ne_none _) (Option.some_ne_none _)
    · rw [Function.update_of_ne hjk]
  have hlog : ∀ j, tasksLog j (log ++ [.threw k e]) = tasksLog j log := by
    intro j
    rw [tasksLog_append]
    exact List.append_nil _
  refine ⟨fun j rj hj => ?_, fun j hj => (hnone j).mpr (h.unborn j hj), fun j hj => ?_,
    fun j hj => ?_, fun halive j rj hj hnot => ?_, h.nodup⟩
  · obtain ⟨rj', hj', htasks⟩ := hsame j rj hj
    rw [hlog]
    unfold RootRun Dropped
    rw [htasks]
    exact h.runs j rj' hj'
  · rw [hlog]
    exact h.silent j ((hnone j).mp hj)
  · obtain ⟨rj, hrj, hhandle⟩ := h.held j hj
    by_cases hjk : j = k
    · subst hjk
      cases hroot.symm.trans hrj
      exact ⟨_, Function.update_self _ _ _, hhandle⟩
    · exact ⟨rj, (Function.update_of_ne hjk _ _).trans hrj, hhandle⟩
  · obtain ⟨rj', hj', htasks⟩ := hsame j rj hj
    unfold Loose Dropped
    rw [htasks]
    exact h.loose halive j rj' hj' hnot

/-- The handles of some tasks are destroyed while no body of theirs is being executed; as long as the
    owner exists, they have ended. -/
theorem Kept.release (h : Kept code o log) (rest gone : List Nat) (alive : Bool)
    (hsplit : ∀ k, k ∈ o.tasks ↔ k ∈ rest ∨ k ∈ gone) (hrest : rest.Nodup) (hgone : gone.Nodup)
    (hdisjoint : ∀ k ∈ rest, k ∉ gone)
    (hidle : ∀ k ∈ gone, ∀ r, o.roots k = some r → r.tasks.idle = true)
    (hended : alive = true → o.alive = true ∧ ∀ k ∈ gone, ∀ r, o.roots k = some r →
      ∀ i, (Root.release (O := O) r).1.tasks.frames i = none) :
    Kept code
      { o with roots := (releaseAll (O := O) o.roots gone).1, tasks := rest, alive := alive }
      (log ++ (releaseAll (O := O) o.roots gone).2) := by
  obtain ⟨hout, hin, hnone, _⟩ := releaseAll_spec (O := O) o.roots hgone
  -- where a root task comes from
  have hfrom : ∀ k r, (releaseAll (O := O) o.roots gone).1 k = some r →
      (k ∉ gone ∧ o.roots k = some r) ∨
      (k ∈ gone ∧ ∃ r', o.roots k = some r' ∧ r = (r'.release (O := O)).1) := by
    intro k r hk
    by_cases hmem : k ∈ gone
    · cases hroot : o.roots k with
      | none => exact nomatch (hnone k hroot).symm.trans hk
      | some r' =>
        rw [(hin k hmem r' hroot).1] at hk
        cases hk
        exact Or.inr ⟨hmem, r', rfl, rfl⟩
    · rw [(hout k hmem).1] at hk
      exact Or.inl ⟨hmem, hk⟩
  have hhandle : ∀ k ∈ gone, ∀ r, o.roots k = some r → r.tasks.handle = true := by
    intro k hk r hr
    obtain ⟨r', hr', hhandle⟩ := h.held k ((hsplit k).mpr (Or.inr hk))
    cases hr.symm.trans hr'
    exact hhandle
  refine ⟨fun k r hk => ?_, fun k hk => hnone k (h.unborn k hk), fun k hk => ?_, fun k hk => ?_,
    fun halive k r hk hnot => ?_, hrest⟩
  · rw [tasksLog_append]
    rcases hfrom k r hk with ⟨hmem, hroot⟩ | ⟨hmem, r', hroot, rfl⟩
    · rw [(hout k hmem).2, List.append_nil]
      exact h.runs k r hroot
    · rw [(hin k hmem r' hroot).2]
      have hstep := root_release_step code (hhandle k hmem r' hroot) (hidle k hmem r' hroot)
      have hrun := (h.runs k r' hroot).step .destroy
      rw [hstep] at hrun
      exact hrun
  · by_cases hmem : k ∈ gone
    · obtain ⟨r, hr, _⟩ := h.held k ((hsplit k).mpr (Or.inr hmem))
      exact nomatch (hin k hmem r hr).1.symm.trans hk
    · rw [tasksLog_append, (hout k hmem).2, List.append_nil]
      exact h.silent k ((hout k hmem).1.symm.trans hk)
  · obtain ⟨r, hr, hexists⟩ := h.held k ((hsplit k).mpr (Or.inl hk))
    exact ⟨r, (hout k (hdisjoint k hk)).1.trans hr, hexists⟩
  · obtain ⟨hbefore, hframes⟩ := hended halive
    rcases hfrom k r hk with ⟨hmem, hroot⟩ | ⟨hmem, r', hroot, rfl⟩
    · exact h.loose hbefore k r hroot fun hin => ((hsplit k).mp hin).elim hnot hmem
    · exact ⟨rfl, Or.inr (hframes k hmem r' hroot)⟩

/-- A root task gets the next number. -/
theorem Kept.born (h : Kept code o log) (hroot : RootRun code r []) {tasks : List Nat}
    {e : OwnerEvent V X O} (hquiet : ∀ k, tasksLog k [e] = [])
    (htasks : (tasks = o.tasks ∧ Loose (O := O) r) ∨
      (tasks = o.tasks ++ [o.next] ∧ r.tasks.handle = true)) :
    Kept code
      { o with roots := Function.update o.roots o.next (some r), next := o.next + 1, tasks := tasks }
      (log ++ [e]) := by
  have hold : ∀ k ∈ o.tasks, k ≠ o.next := by
    intro k hk
    obtain ⟨rk, hrk, _⟩ := h.held k hk
    exact Nat.ne_of_lt (h.lt_next hrk)
  have hlog : ∀ k, tasksLog k (log ++ [e]) = tasksLog k log := by
    intro k
    rw [tasksLog_append, hquiet, List.append_nil]
  have hmem : ∀ k, k ∈ o.tasks → k ∈ tasks := by
    intro k hk
    rcases htasks with ⟨rfl, _⟩ | ⟨rfl, _⟩
    · exact hk
    · exact List.mem_append_left _ hk
  refine ⟨fun k rk hk => ?_, fun k hk => ?_, fun k hk => ?_, fun k hk => ?_,
    fun halive k rk hk hnot => ?_, ?_⟩
  · rw [hlog]
    by_cases hkn : k = o.next
    · subst hkn
      have hself : Function.update o.roots o.next (some r) o.next = some rk := hk
      rw [Function.update_self] at hself
      cases hself
      rw [h.silent _ (h.unborn _ (Nat.le_refl _))]
      exact hroot
    · exact h.runs k rk ((Function.update_of_ne hkn _ _).symm.trans hk)
  · have hkn : k ≠ o.next := Nat.ne_of_gt hk
    exact (Function.update_of_ne hkn _ _).trans (h.unborn k (Nat.le_of_succ_le hk))
  · have hkn : k ≠ o.next := by
      intro he
      subst he
      exact nomatch (Function.update_self o.next (some r) o.roots).symm.trans hk
    rw [hlog]
    exact h.silent k ((Function.update_of_ne hkn _ _).symm.trans hk)
  · by_cases hkn : k = o.next
    · subst hkn
      refine ⟨r, Function.update_self _ _ _, ?_⟩
      rcases htasks with ⟨rfl, _⟩ | ⟨_, hhandle⟩
      · exact absurd rfl (hold _ hk)
      · exact hhandle
    · have hin : k ∈ o.tasks := by
        rcases htasks with ⟨rfl, _⟩ | ⟨rfl, _⟩
        · exact hk
        · exact (List.mem_append.mp hk).resolve_right fun he => hkn (List.mem_singleton.mp he)
      obtain ⟨rk, hrk, hhandle⟩ := h.held k hin
      exact ⟨rk, (Function.update_of_ne hkn _ _).trans hrk, hhandle⟩
  · by_cases hkn : k = o.next
    · subst hkn
      have hself : Function.update o.roots o.next (some r) o.next = some rk := hk
      rw [Function.update_self] at hself
      cases hself
      rcases htasks with ⟨_, hloose⟩ | ⟨rfl, _⟩
      · exact hloose
      · exact absurd (List.mem_append_right _ (List.mem_singleton.mpr rfl)) hnot
    · exact h.loose halive k rk ((Function.update_of_ne hkn _ _).symm.trans hk)
        fun hin => hnot (hmem k hin)
  · rcases htasks with ⟨rfl, _⟩ | ⟨rfl, _⟩
    · exact h.nodup
    · refine List.nodup_append.mpr ⟨h.nodup, List.nodup_singleton _, fun a ha b hb he => ?_⟩
      exact hold a ha (he.trans (List.mem_singleton.mp hb))

/-- `StartRootTask` keeps the root tasks. -/
theorem Kept.startRootTask (h : Kept code o log) (halive : o.alive = true) (l : L) :
    Kept code (o.startRootTask (O := O) l).1 (log ++ (o.startRootTask (O := O) l).2.1) := by
  unfold Owner.startRootTask
  rcases rethrow_cases o.roots o.tasks with ⟨k, r, e, hk, hr, _, heq⟩ | ⟨heq, _⟩
  · rw [heq]
    have hthrew := h.threw hr e
    have hdropped : Dropped (O := O) (Root.release (O := O) (Root.called l : Root L V X)).1 :=
      ⟨l, rfl⟩
    have hborn := hthrew.born (Or.inr ⟨hdropped, rfl⟩) (e := .dropped o.next) (fun _ => rfl)
      (Or.inl ⟨rfl, rfl, Or.inl hdropped⟩)
    rw [List.append_assoc] at hborn
    exact hborn
  · rw [heq]
    have hnotholds : ∀ k ∈ o.tasks.filter (fun j => !holds o.roots j), ∀ r, o.roots k = some r →
        r.tasks.live 0 = false := by
      intro k hk r hr
      have hdone := (List.mem_filter.mp hk).2
      unfold holds at hdone
      rw [hr] at hdone
      simpa using hdone
    have hended : ∀ k ∈ o.tasks.filter (fun j => !holds o.roots j), ∀ r, o.roots k = some r →
        r.tasks.idle = true ∧ ∀ i, (Root.release (O := O) r).1.tasks.frames i = none := by
      intro k hk r hr
      obtain ⟨r', hr', hhandle⟩ := h.held k (List.mem_filter.mp hk).1
      cases hr.symm.trans hr'
      exact (h.runs k r hr).ended hhandle (hnotholds k hk r hr)
    have hreleased := h.release (o.tasks.filter (holds o.roots))
      (o.tasks.filter fun j => !holds o.roots j) o.alive (fun k => ?_)
      (h.nodup.filter _) (h.nodup.filter _) (fun k hk hgone => ?_)
      (fun k hk r hr => (hended k hk r hr).1) fun _ => ⟨halive, fun k hk r hr => (hended k hk r hr).2⟩
    · have hborn := hreleased.born (r := ⟨Tasks.start l, false⟩) (Or.inl ⟨l, [], rfl, rfl⟩)
        (e := .started o.next) (fun _ => rfl) (Or.inr ⟨rfl, rfl⟩)
      rw [List.append_assoc] at hborn
      exact hborn
    · rw [List.mem_filter, List.mem_filter]
      cases holds o.roots k <;> simp
    · have hyes := (List.mem_filter.mp hk).2
      have hno := (List.mem_filter.mp hgone).2
      rw [hyes] at hno
      exact nomatch hno

theorem idle_root (h : o.idle = true) {k : Nat} (hk : k ∈ o.tasks) {r : Root L V X}
    (hr : o.roots k = some r) : r.tasks.idle = true := by
  unfold Owner.idle at h
  have hall := List.all_eq_true.mp (Bool.and_eq_true_iff.mp h).2 k hk
  rw [hr] at hall
  exact hall

/-- What the destructor leaves. -/
def Owner.destroyed (o : Owner L V X) : Owner L V X :=
  { o with roots := (releaseAll (O := O) o.roots o.tasks).1, tasks := [], alive := false }

theorem destroy_eq (halive : o.alive = true) (hidle : o.idle = true) :
    (owning code nested void).step o .destroy =
      (o.destroyed (O := O), (releaseAll o.roots o.tasks).2) := by
  have hboth : (o.alive && o.idle) = true := by rw [halive, hidle, Bool.and_self]
  exact if_pos hboth

theorem Kept.destroy (h : Kept code o log) (hidle : o.idle = true) :
    Kept code (o.destroyed (O := O)) (log ++ (releaseAll o.roots o.tasks).2) :=
  h.release [] o.tasks false (fun k => by rw [or_iff_right List.not_mem_nil]) List.nodup_nil
    h.nodup (fun k hk => absurd hk List.not_mem_nil) (fun k hk r hr => idle_root hidle hk hr)
    fun halive => nomatch halive

theorem Kept.resume (h : Kept code o log) (k f : Nat) (r : Result V X) :
    Kept code (o.resume (O := O) k f r).1 (log ++ (o.resume (O := O) k f r).2) := by
  unfold Owner.resume
  cases hroot : o.roots k with
  | none => exact (List.append_nil log).symm ▸ h
  | some root => exact h.tasks hroot (i := .resume f r) nofun

theorem Kept.advance (h : Kept code o log) (k : Nat) :
    Kept code (o.advance code nested k).1 (log ++ (o.advance code nested k).2) := by
  unfold Owner.advance
  cases hroot : o.roots k with
  | none => exact (List.append_nil log).symm ▸ h
  | some root =>
    have hstep : Kept code (o.setTasks k root (root.tasks.advance code).1)
        (log ++ (root.tasks.advance code).2.map (.task k)) := h.tasks hroot (i := .advance) nofun
    dsimp only
    split
    · exact hstep
    · rename_i f child _
      split
      · rename_i halive
        have hstarted := hstep.startRootTask halive child
        rw [List.append_assoc] at hstarted
        split
        · rename_i o' evs' e heq
          rw [heq] at hstarted
          have hresumed := hstarted.resume k f (.error e)
          rw [List.append_assoc, List.append_assoc] at hresumed
          exact hresumed
        · rename_i o' evs' heq
          rw [heq] at hstarted
          exact ⟨hstarted.runs, hstarted.unborn, hstarted.silent, hstarted.held, hstarted.loose,
            hstarted.nodup⟩
      · rw [← List.append_assoc]
        refine ⟨fun j r hj => ?_, hstep.unborn, fun j hj => ?_, hstep.held, hstep.loose,
          hstep.nodup⟩
        · rw [tasksLog_append]
          exact (List.append_nil (tasksLog j _)).symm ▸ hstep.runs j r hj
        · rw [tasksLog_append]
          exact (List.append_nil (tasksLog j _)).trans (hstep.silent j hj)

/-- **Every step keeps the root tasks.** -/
theorem kept_step (h : Kept code o log) (i : OwnerInput L V X) :
    Kept code ((owning code nested void).step o i).1
      (log ++ ((owning code nested void).step o i).2) := by
  have hsame : Kept code o (log ++ []) := (List.append_nil log).symm ▸ h
  cases i with
  | start l =>
    show Kept code (if o.alive then _ else _ : Owner L V X × List (OwnerEvent V X O)).1
      (log ++ (if o.alive then _ else _ : Owner L V X × List (OwnerEvent V X O)).2)
    split
    · rename_i halive
      exact h.startRootTask halive l
    · exact hsame
  | rethrow =>
    unfold owning
    dsimp only
    rcases rethrow_cases o.roots o.tasks with ⟨k, r, e, _, hr, _, heq⟩ | ⟨heq, _⟩
    · rw [heq]
      exact h.threw hr e
    · rw [heq]
      exact hsame
  | advance k => exact h.advance k
  | resume k f r =>
    unfold owning
    dsimp only
    split
    · exact hsame
    · exact h.resume k f r
  | nested k f =>
    unfold owning
    dsimp only
    split
    · have hnesting : Kept code { o with nesting := o.nesting.erase (k, f) } log :=
        ⟨h.runs, h.unborn, h.silent, h.held, h.loose, h.nodup⟩
      exact hnesting.resume k f (.ok void)
    · exact hsame
  | destroy =>
    by_cases hboth : (o.alive && o.idle) = true
    · obtain ⟨halive, hidle⟩ := Bool.and_eq_true_iff.mp hboth
      rw [destroy_eq halive hidle]
      exact h.destroy hidle
    · have hstep : (owning code nested void).step o .destroy = (o, []) := if_neg hboth
      rw [hstep]
      exact hsame

/-- And so does every run. -/
theorem kept_run (code : L → Op L V X O) (nested : L → Option L) (void : V)
    (is : List (OwnerInput L V X)) :
    Kept code ((owning code nested void).exec Owner.new is)
      ((owning code nested void).outs Owner.new is) :=
  Machine.log_invariant (P := Kept code) (l := []) (fun _ _ i h => kept_step h i) kept_new is

end Runs

/-! ## 4. Without the owner -/

/-- The handle of a root task is gone, and nothing but unwinding is left. -/
def Quiet (code : L → Op L V X O) (r : Root L V X) : Prop :=
  Dropped (O := O) r ∨ ∃ acts, ∃ log : List (Event V X O), Nested r.tasks acts ∧
    Told r.tasks acts log ∧ Armed code r.tasks.frames ∧ r.tasks.handle = false ∧
    Unwinding code r.tasks acts

/-- The owner is gone, and so are the handles of all its root tasks. -/
structure Gone (code : L → Op L V X O) (o : Owner L V X) : Prop where
  dead : o.alive = false
  empty : o.tasks = []
  closed : o.nesting = []
  quiet : ∀ k r, o.roots k = some r → Quiet code r

section Gone

variable {code : L → Op L V X O} {nested : L → Option L} {void : V} {o : Owner L V X}
  {log : List (OwnerEvent V X O)} {k : Nat} {r : Root L V X}

theorem Quiet.step (hcode : NoCatch code) (h : Quiet code r) (i : TaskInput V X) :
    Quiet code { r with tasks := ((taskMachine code).step r.tasks i).1 } ∧
      ∀ e ∈ ((taskMachine code).step r.tasks i).2, e.Unwinds := by
  rcases h with hdropped | ⟨acts, log, hnested, htold, harmed, hhandle, hu⟩
  · rw [hdropped.step i]
    exact ⟨Or.inl hdropped, fun _ he => absurd he List.not_mem_nil⟩
  · obtain ⟨acts', hkeeps, hu', hhandle', hevs⟩ := unwinding_step hnested htold harmed hhandle hu i
    exact ⟨Or.inr ⟨acts', _, hkeeps.1, hkeeps.2, harmed.step hcode i, hhandle', hu'⟩, hevs⟩

/-- A body that is about to go on throws `CanceledException`; none comes to `StartNestedTask`. -/
theorem Quiet.nestingAt (h : Quiet code r) : nestingAt code nested r.tasks = none := by
  rcases h with ⟨l, hdropped⟩ | ⟨acts, _, hnested, _, _, _, hu⟩
  · rw [hdropped]
    rfl
  · have hhead : ∀ f fr ps rest, acts = (f, fr) :: ps → r.tasks.stack = f :: rest →
        (∀ l, fr.point = .running l → code l = .throw .canceled) →
        Utils.nestingAt code nested r.tasks = none := by
      intro f fr ps rest hacts hstack hthrow
      unfold Utils.nestingAt
      rw [hstack]
      dsimp only
      rw [hnested.here (f, fr) (hacts ▸ List.mem_cons_self)]
      dsimp only
      split
      · rename_i l hpoint
        rw [hthrow l hpoint]
      · rfl
    cases hu with
    | waiting hidle =>
      cases hstack : r.tasks.stack with
      | nil =>
        unfold Utils.nestingAt
        rw [hstack]
      | cons f rest =>
        have hdead : r.tasks.live f = false := Bool.eq_false_iff.mpr
          (List.filter_eq_nil_iff.mp (hnested.stack_dead hidle) f (hstack ▸ List.mem_cons_self))
        unfold Utils.nestingAt
        rw [hstack]
        dsimp only
        unfold Tasks.live at hdead
        cases hframe : r.tasks.frames f with
        | none => rfl
        | some fr =>
          rw [hframe] at hdead
          have hdone : fr.done = true := by simpa using hdead
          unfold Frame.done at hdone
          dsimp only
          split
          · rename_i l hpoint
            rw [hpoint] at hdone
            exact nomatch hdone
          · rfl
    | throwing hstack hpoint hthrow hidle =>
      refine hhead _ _ _ _ rfl hstack fun l hl => ?_
      cases hpoint.symm.trans hl
      exact hthrow
    | taking hstack hpoint hidle =>
      exact hhead _ _ _ _ rfl hstack fun l hl => nomatch hpoint.symm.trans hl

/-- What a root task of an owner that is gone does is what its coroutines do. -/
theorem Gone.tasks (hcode : NoCatch code) (h : Gone code o) (hroot : o.roots k = some r)
    (i : TaskInput V X) :
    Gone code (o.setTasks k r ((taskMachine code).step r.tasks i).1) ∧
      ∀ e ∈ ((taskMachine code).step r.tasks i).2.map (OwnerEvent.task k),
        ∃ j ev, e = .task j ev ∧ ev.Unwinds := by
  obtain ⟨hquiet, hevs⟩ := (h.quiet k r hroot).step hcode i
  refine ⟨⟨h.dead, h.empty, h.closed, fun j rj hj => ?_⟩, fun e he => ?_⟩
  · by_cases hjk : j = k
    · subst hjk
      have hself : Function.update o.roots j _ j = some rj := hj
      rw [Function.update_self] at hself
      cases hself
      exact hquiet
    · exact h.quiet j rj ((Function.update_of_ne hjk _ _).symm.trans hj)
  · obtain ⟨ev, hev, rfl⟩ := List.mem_map.mp he
    exact ⟨k, ev, rfl, hevs ev hev⟩

theorem Gone.advance_eq (h : Gone code o) (hroot : o.roots k = some r) :
    (owning code nested void).step o (.advance k) =
      (o.setTasks k r (r.tasks.advance code).1, (r.tasks.advance code).2.map (.task k)) := by
  show o.advance code nested k = _
  unfold Owner.advance
  rw [hroot]
  dsimp only
  rw [(h.quiet k r hroot).nestingAt]

theorem Gone.resume_eq (h : Gone code o) (hroot : o.roots k = some r) (f : Nat) (res : Result V X) :
    (owning code nested void).step o (.resume k f res) =
      (o.setTasks k r (r.tasks.resume (O := O) f res).1,
        (r.tasks.resume (O := O) f res).2.map (.task k)) := by
  have hopen : (k, f) ∉ o.nesting := by
    rw [h.closed]
    exact List.not_mem_nil
  refine (if_neg hopen).trans ?_
  unfold Owner.resume
  rw [hroot]

/-- Some more steps of the coroutines of one root task, without the handle. -/
def lift (k : Nat) : TaskInput V X → OwnerInput L V X
  | .advance => .advance k
  | .resume f r => .resume k f r
  | .destroy => .destroy

theorem Gone.exec (hcode : NoCatch code) (h : Gone code o) (hroot : o.roots k = some r)
    {js : List (TaskInput V X)} (hjs : TaskInput.destroy ∉ js) :
    ∃ r', ((owning code nested void).exec o (js.map (lift k))).roots k = some r' ∧
      r'.tasks = (taskMachine code).exec r.tasks js := by
  induction js generalizing o r with
  | nil => exact ⟨r, hroot, rfl⟩
  | cons j js ih =>
    have hrest : TaskInput.destroy ∉ js := fun hmem => hjs (List.mem_cons_of_mem j hmem)
    have hstep : ((owning code nested void).step o (lift k j)).1 =
        o.setTasks k r ((taskMachine code).step r.tasks j).1 := by
      cases j with
      | advance => exact congrArg Prod.fst (h.advance_eq hroot)
      | resume f res => exact congrArg Prod.fst (h.resume_eq hroot f res)
      | destroy => exact absurd List.mem_cons_self hjs
    have hgone := (h.tasks hcode hroot j).1
    obtain ⟨r', hr', htasks⟩ := ih hgone (Function.update_self _ _ _) hrest
    refine ⟨r', ?_, htasks⟩
    show ((owning code nested void).exec ((owning code nested void).step o (lift k j)).1
      (js.map (lift k))).roots k = some r'
    rw [hstep]
    exact hr'

/-- A root task whose handle is destroyed while nothing of it is being executed. -/
theorem RootRun.quiet (hcode : NoCatch code) {rlog : List (Event V X O)} (h : RootRun code r rlog)
    (hhandle : r.tasks.handle = true) (hidle : r.tasks.idle = true) :
    Quiet code (r.release (O := O)).1 := by
  rcases h with ⟨l, is, hexec, _⟩ | ⟨⟨l, hdropped⟩, _⟩
  · obtain ⟨acts, hnested, htold⟩ := told_run code l is
    have harmed := (armed_run hcode l is).step hcode .destroy
    have hstep := root_release_step code hhandle hidle
    rw [← hexec] at hnested htold harmed
    rw [hstep] at harmed
    cases hlive : r.tasks.live 0 with
    | true =>
      obtain ⟨acts', hkeeps, _, _, hbusy, _⟩ := destroyed_waits hnested htold hhandle ⟨hidle, hlive⟩
      rw [hstep] at hkeeps
      exact Or.inr ⟨acts', _, hkeeps.1, hkeeps.2, harmed, rfl, .waiting hbusy⟩
    | false =>
      -- it has ended, and no frame is left
      obtain ⟨acts', hkeeps⟩ := destroy_keeps code hnested htold
      rw [hstep] at hkeeps
      have hrun : RootRun code r _ := Or.inl ⟨l, is, hexec, rfl⟩
      have hnone := (hrun.ended hhandle hlive).2
      have hnil : acts' = [] := by
        cases acts' with
        | nil => rfl
        | cons a acts' => exact nomatch (hnone a.1).symm.trans (hkeeps.1.here a List.mem_cons_self)
      subst hnil
      exact Or.inr ⟨[], _, hkeeps.1, hkeeps.2, harmed, rfl,
        .waiting fun a ha => absurd ha List.not_mem_nil⟩
  · rw [hdropped] at hhandle
    exact nomatch hhandle

theorem Loose.quiet (hcode : NoCatch code) {rlog : List (Event V X O)} (h : RootRun code r rlog)
    (hloose : Loose (O := O) r) : Quiet code r := by
  obtain ⟨hhandle, hdropped | hnone⟩ := hloose
  · exact Or.inl hdropped
  · rcases h with ⟨l, is, hexec, _⟩ | ⟨hdropped, _⟩
    · obtain ⟨acts, hnested, htold⟩ := told_run code l is
      have harmed := armed_run hcode l is
      rw [← hexec] at hnested htold harmed
      have hnil : acts = [] := by
        cases acts with
        | nil => rfl
        | cons a acts => exact nomatch (hnone a.1).symm.trans (hnested.here a List.mem_cons_self)
      subst hnil
      exact Or.inr ⟨[], _, hnested, htold, harmed, hhandle,
        .waiting fun a ha => absurd ha List.not_mem_nil⟩
    · exact Or.inl hdropped

/-- The destructor destroys the handles of all root tasks. -/
theorem Kept.gone (hcode : NoCatch code) (h : Kept code o log) (halive : o.alive = true)
    (hidle : o.idle = true) : Gone code (o.destroyed (O := O)) := by
  obtain ⟨hout, hin, hnone, _⟩ := releaseAll_spec (O := O) o.roots h.nodup
  refine ⟨rfl, rfl, ?_, fun k r hk => ?_⟩
  · have hclosed := (Bool.and_eq_true_iff.mp hidle).1
    exact List.isEmpty_iff.mp hclosed
  · have hk : (releaseAll (O := O) o.roots o.tasks).1 k = some r := hk
    by_cases hmem : k ∈ o.tasks
    · obtain ⟨r', hr', hhandle⟩ := h.held k hmem
      rw [(hin k hmem r' hr').1] at hk
      cases hk
      exact (h.runs k r' hr').quiet hcode hhandle (idle_root hidle hmem hr')
    · rw [(hout k hmem).1] at hk
      exact (h.loose halive k r hk hmem).quiet hcode (h.runs k r hk)

end Gone

/-- Its frames are destroyed when it is resumed then. -/
theorem RootRun.freed {code : L → Op L V X O} (hcode : NoCatch code) {r : Root L V X}
    {rlog : List (Event V X O)} (h : RootRun code r rlog) (hhandle : r.tasks.handle = true)
    (hidle : r.tasks.idle = true) {f : Nat} (hf : Pending r.tasks f) (res : Result V X) :
    ∃ n, ∀ i, ((taskMachine code).exec r.tasks
      (.destroy :: .resume f res :: advances n)).frames i = none := by
  rcases h with ⟨l, is, hexec, _⟩ | ⟨⟨l, hdropped⟩, _⟩
  · obtain ⟨acts, hnested, _⟩ := told_run code l is
    rw [← hexec] at hnested
    have hlive : r.tasks.live 0 = true := by
      obtain ⟨fr, next, hframe, hpoint⟩ := hf
      obtain ⟨ps, rfl⟩ := hnested.awaiting_head hframe hpoint
      obtain ⟨rf, hroot⟩ := hnested.root_mem (List.cons_ne_nil _ _)
      exact live_eq (hnested.here _ hroot) (hnested.open' _ hroot)
    have hunwound := chain_unwound hcode l is (hexec ▸ hhandle) (hexec ▸ ⟨hidle, hlive⟩)
    rw [← hexec] at hunwound
    obtain ⟨n, hframes, _⟩ := hunwound.freed f res hf
    exact ⟨n, hframes⟩
  · rw [hdropped] at hhandle
    exact nomatch hhandle

/-- Where a body goes on with a value; an exception is let through. -/
def onward : Result Nat Empty → Nat
  | .ok _ => 1
  | .error _ => 4

end Veridie.Utils
