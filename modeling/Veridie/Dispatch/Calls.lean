/-
  File:      Veridie/Dispatch/Calls.lean
  Subject:   What becomes of the calls that one thread makes of `Schedule`, always without a delay: each
             of them is executed once, in the order in which they were made.

  * `WorkerInput.calls` -- the task that a thread schedules in a step;
  * `Calling` -- what it has scheduled is what it has inserted, and what it is about to insert;
  * `Line`, `Line.step` -- the same with the order in which tasks are started;
  * `Delivered` -- what follows for the tasks of the thread.
-/
import Veridie.Dispatch.Lane

namespace Veridie.Dispatch

open Veridie.Lib

variable {α : Type}

/-! ## 1. Calls -/

/-- The worker with its first task. -/
def Worker.running (w : Worker α) (e : Entry α) (es : List (Entry α)) : Worker α :=
  { w with tasks := es, phase := .running e }

/-- Taking a task: nothing, or the first one is started. -/
theorem getNextTask_cases (w : Worker α) : w.getNextTask = (w, []) ∨
    ∃ e es, w.phase = .waiting ∧ w.tasks = e :: es ∧ e.timeToFire ≤ w.now ∧
      w.getNextTask = (w.running e es, [.started e w.now]) := by
  unfold Worker.getNextTask
  cases hphase : w.phase with
  | waiting =>
    cases htasks : w.tasks with
    | nil => exact Or.inl rfl
    | cons e es =>
      by_cases hdue : e.timeToFire ≤ w.now
      · exact Or.inr ⟨e, es, rfl, rfl, hdue, if_pos hdue⟩
      · exact Or.inl (if_neg hdue)
  | running e => exact Or.inl rfl
  | stopped => exact Or.inl rfl

/-- What a thread has inserted, in the order of insertion. -/
def insertedFrom (t : Thread) (log : List (WorkerEvent α)) : List (Entry α) :=
  ((insertions log).filter fun p => p.1.thread = t).map Prod.snd

/-- The task that the thread schedules in a step. -/
def WorkerInput.calls (t : Thread) (w : Worker α) : WorkerInput α → List (Task α)
  | .schedule u _ _ task => if u = t ∧ w.free u then [task] else []
  | _ => []

theorem calls_of_ne {t u : Thread} (hne : u ≠ t) (w : Worker α) (blocking : Bool) (delay : Int)
    (task : Task α) : (WorkerInput.schedule u blocking delay task).calls t w = [] :=
  if_neg fun h => hne h.1

/-- The thread waits for room, and asks for no delay. -/
def WorkerInput.Waits (t : Thread) : WorkerInput α → Prop
  | .schedule u blocking delay _ => u = t → blocking = true ∧ delay = 0
  | _ => True

/-- What the thread has scheduled. -/
structure Calling (t : Thread) (w : Worker α) (log : List (WorkerEvent α)) (called : List (Task α)) :
    Prop where
  calls : ∀ c ∈ w.calls, c.thread = t → c.blocking = true
  all : called = (insertedFrom t log).map Entry.task ++ (w.callOf t).toList.map Call.task

section Calling

variable {t : Thread} {w w' : Worker α} {log evs : List (WorkerEvent α)} {called : List (Task α)}

theorem Calling.new (t : Thread) (capacity : Nat) (now : Int) :
    Calling t (Worker.new α capacity now) [] [] := ⟨List.forall_mem_nil _, rfl⟩

theorem insertedFrom_append (t : Thread) (log evs : List (WorkerEvent α)) :
    insertedFrom t (log ++ evs) = insertedFrom t log ++ insertedFrom t evs := by
  rw [insertedFrom, insertions, List.filterMap_append, List.filter_append, List.map_append]
  rfl

/-- A step in which the thread neither calls nor inserts. -/
theorem Calling.still (h : Calling t w log called) (hcalls : ∀ c ∈ w'.calls, c ∈ w.calls)
    (hcall : w'.callOf t = w.callOf t) (hevs : insertedFrom t evs = []) :
    Calling t w' (log ++ evs) called := by
  refine ⟨fun c hc => h.calls c (hcalls c hc), ?_⟩
  rw [insertedFrom_append, hevs, List.append_nil, hcall]
  exact h.all

/-- Another call has ended. -/
theorem callOf_filter_ne {u : Thread} (hne : u ≠ t) :
    ({ w with calls := w.calls.filter (·.thread ≠ u) } : Worker α).callOf t = w.callOf t := by
  cases hcall : w.callOf t with
  | none => exact callOf_filter hcall
  | some c => exact callOf_filter_other hne hcall

/-- No call of the thread is left behind its section. -/
theorem callOf_filter_self (w : Worker α) (t : Thread) :
    ({ w with calls := w.calls.filter (·.thread ≠ t) } : Worker α).callOf t = none := by
  refine List.find?_eq_none.mpr fun c hc hthread => ?_
  exact of_decide_eq_true (List.mem_filter.mp hc).2 (of_decide_eq_true hthread)

/-- A thread calls `Schedule`. -/
theorem Calling.schedule (h : Calling t w log called) {u : Thread} {blocking : Bool} {delay : Int}
    {task : Task α} (hwaits : (WorkerInput.schedule u blocking delay task).Waits t)
    (hfree : w.free u = true) :
    Calling t { w with calls := ⟨u, blocking, delay, w.now + delay, task⟩ :: w.calls } log
      (called ++ if u = t then [task] else []) := by
  have hnone : w.callOf u = none := Option.isNone_iff_eq_none.mp (Bool.and_eq_true _ _ ▸ hfree :).1
  by_cases hu : u = t
  · subst hu
    refine ⟨List.forall_mem_cons.mpr ⟨fun _ => (hwaits rfl).1, h.calls⟩, ?_⟩
    -- the thread was in no call
    have hnow : ({ w with calls := ⟨u, blocking, delay, w.now + delay, task⟩ :: w.calls } :
        Worker α).callOf u = some ⟨u, blocking, delay, w.now + delay, task⟩ :=
      List.find?_cons_of_pos (decide_eq_true rfl)
    have hall := h.all
    rw [hnone] at hall
    rw [hnow, hall, if_pos rfl, List.append_assoc]
    rfl
  · have hother : ({ w with calls := ⟨u, blocking, delay, w.now + delay, task⟩ :: w.calls } :
        Worker α).callOf t = w.callOf t :=
      List.find?_cons_of_neg fun hthread => hu (of_decide_eq_true hthread)
    refine ⟨List.forall_mem_cons.mpr ⟨fun hthread => absurd hthread hu, h.calls⟩, ?_⟩
    rw [hother, if_neg hu, List.append_nil]
    exact h.all

/-- A thread enters its section. -/
theorem Calling.lock (h : Calling t w log called) (u : Thread) :
    Calling t (w.lock u).1 (log ++ (w.lock u).2) called := by
  unfold Worker.lock
  cases hcall : w.callOf u with
  | none =>
    rw [List.append_nil]
    exact h
  | some c =>
    have hthread : c.thread = u := of_decide_eq_true (List.find?_some hcall :)
    have hmem : c ∈ w.calls := List.mem_of_find?_eq_some hcall
    dsimp only
    by_cases hroom : w.tasks.length < w.capacity
    · rw [if_pos hroom]
      by_cases hu : u = t
      · subst hu
        have hinserted : insertedFrom u [.inserted c ⟨c.timeToFire, w.next, c.task⟩] =
            [⟨c.timeToFire, w.next, c.task⟩] :=
          congrArg (List.map Prod.snd) (List.filter_cons_of_pos (decide_eq_true hthread))
        refine ⟨fun d hd => h.calls d (List.mem_of_mem_filter hd), ?_⟩
        have hall := h.all
        have hnone : ({ w with
            tasks := insertBehind Entry.timeToFire ⟨c.timeToFire, w.next, c.task⟩ w.tasks,
            next := w.next + 1, calls := w.calls.filter (·.thread ≠ u) } : Worker α).callOf u = none :=
          callOf_filter_self w u
        rw [hcall] at hall
        rw [insertedFrom_append, hinserted, hnone, hall, List.map_append]
        exact (List.append_nil _).symm
      · have hinserted : insertedFrom t [.inserted c ⟨c.timeToFire, w.next, c.task⟩] = [] :=
          congrArg (List.map Prod.snd)
            (List.filter_cons_of_neg fun heq => hu (hthread.symm.trans (of_decide_eq_true heq)))
        exact h.still (fun d hd => List.mem_of_mem_filter hd) (callOf_filter_ne hu) hinserted
    · rw [if_neg hroom]
      cases hblocking : c.blocking with
      | true => exact h.still (fun _ hd => hd) rfl rfl
      | false =>
        have hu : u ≠ t := by
          intro hu
          exact absurd ((h.calls c hmem (hthread.trans hu)).symm.trans hblocking) Bool.true_eq_false.mp
        exact h.still (fun d hd => List.mem_of_mem_filter hd) (callOf_filter_ne hu) rfl

/-- **One step.** -/
theorem Calling.step (h : Calling t w log called) {i : WorkerInput α} (hi : i.Waits t) :
    Calling t (workerMachine.step w i).1 (log ++ (workerMachine.step w i).2)
      (called ++ i.calls t w) := by
  cases i with
  | tick d =>
    show Calling t _ _ (called ++ [])
    rw [List.append_nil]
    exact h.still (fun _ hc => hc) rfl rfl
  | schedule u blocking delay task =>
    simp only [workerMachine, Worker.schedule, WorkerInput.calls]
    by_cases hfree : w.free u = true
    · have hcalled : (if u = t ∧ w.free u = true then [task] else []) = if u = t then [task] else [] :=
        if_congr (and_iff_left hfree) rfl rfl
      rw [if_pos hfree, hcalled, List.append_nil]
      exact h.schedule hi hfree
    · rw [if_neg hfree, if_neg fun hboth => hfree hboth.2, List.append_nil, List.append_nil]
      exact h
  | lock u =>
    show Calling t (w.lock u).1 (log ++ (w.lock u).2) (called ++ [])
    rw [List.append_nil]
    exact h.lock u
  | take =>
    show Calling t w.getNextTask.1 (log ++ w.getNextTask.2) (called ++ [])
    rw [List.append_nil]
    rcases getNextTask_cases w with hnone | ⟨e, es, _, _, _, htake⟩
    · rw [hnone]
      exact h.still (fun _ hc => hc) rfl rfl
    · rw [htake]
      exact h.still (fun _ hc => hc) rfl rfl
  | finish exception =>
    show Calling t _ _ (called ++ [])
    rw [List.append_nil]
    simp only [workerMachine, Worker.finish]
    split
    · cases exception with
      | none => exact h.still (fun _ hc => hc) rfl rfl
      | some what => exact h.still (fun _ hc => hc) rfl rfl
    · exact h.still (fun _ hc => hc) rfl rfl

end Calling

/-! ## 2. What becomes of them -/

/-- The thread schedules without a delay, and the worker keeps what it is given. -/
structure Line (t : Thread) (w : Worker α) (log : List (WorkerEvent α)) (called : List (Task α)) :
    Prop where
  kept : Kept w log
  timely : Timely w log
  asked : Asked (fun u delay => u = t → delay = 0) w log
  calling : Calling t w log called

/-- What a thread has scheduled is first what has been started, then what waits, each in the order in
    which it was scheduled, and at last what it is about to insert; no task is started twice or
    started and still there. -/
structure Delivered (t : Thread) (w : Worker α) (log : List (WorkerEvent α)) (called : List (Task α)) :
    Prop where
  once : ((starts log ++ w.tasks).map Entry.num).Nodup
  inOrder : ∃ done rest : List (Entry α),
    called = done.map Entry.task ++ rest.map Entry.task ++ (w.callOf t).toList.map Call.task ∧
      done.Sublist (starts log) ∧ rest.Sublist w.tasks ∧ done ++ rest = insertedFrom t log

section Line

variable {t : Thread} {w : Worker α} {log : List (WorkerEvent α)} {called : List (Task α)}

theorem Line.new (t : Thread) (capacity : Nat) (now : Int) :
    Line t (Worker.new α capacity now) [] [] :=
  ⟨Kept.new capacity now, Timely.new capacity now,
    ⟨List.forall_mem_nil _, List.forall_mem_nil _⟩, Calling.new t capacity now⟩

theorem Line.step (h : Line t w log called) {i : WorkerInput α} (hi : i.Waits t) :
    Line t (workerMachine.step w i).1 (log ++ (workerMachine.step w i).2) (called ++ i.calls t w) := by
  refine ⟨h.kept.step i, h.timely.step i, h.asked.step ?_, h.calling.step hi⟩
  cases i with
  | schedule u blocking delay task => exact fun hu => (hi hu).2
  | _ => trivial

/-- **What a thread schedules is executed in this order, each task once.** -/
theorem Line.delivered (h : Line t w log called) : Delivered t w log called := by
  obtain ⟨done, rest, hsplit, hdone, hrest⟩ := h.kept.fifo h.timely t 0
  have hdelay : insertedFrom t log = insertedBy t 0 log := by
    refine congrArg (List.map Prod.snd) (List.filter_congr fun p hp => ?_)
    by_cases hthread : p.1.thread = t
    · rw [decide_eq_true hthread, decide_eq_true (h.asked.inserted p hp hthread)]
      rfl
    · rw [decide_eq_false hthread]
      rfl
  refine ⟨List.pairwise_map.mpr h.kept.nums_ne, done, rest, ?_, hdone, hrest,
    (hdelay.trans hsplit).symm⟩
  rw [← List.map_append, ← hsplit, ← hdelay]
  exact h.calling.all

end Line

end Veridie.Dispatch
