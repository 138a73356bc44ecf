/-
  File:      Veridie/Dispatch/Lane.lean
  Subject:   Tasks of one sort that one thread schedules on a worker, always with the same delay: they
             are a queue, from the call to the start, whatever else the worker has to do.

  * `lane` -- the tasks of the sort that wait, and the one in a call;
  * `Lane` -- they stand in the order in which they were scheduled;
  * `Lane.step` -- a call puts a task at the end, and the worker takes the one in front;
  * `Lane.still` -- other steps leave the queue as it is;
  * `All.step` -- what holds of every task that is scheduled holds of every one that waits.
-/
import Veridie.Dispatch.Order

namespace Veridie.Dispatch

open Veridie.Lib

variable {α β : Type}

/-! ## 1. The queue -/

/-- The tasks of a sort that wait or are about to be inserted. -/
def lane (sort : Task α → Option β) (w : Worker α) : List β :=
  w.tasks.filterMap (fun e => sort e.task) ++ w.calls.filterMap (fun c => sort c.task)

/-- The task that a step puts into the queue. -/
def WorkerInput.queued (sort : Task α → Option β) (w : Worker α) : WorkerInput α → List β
  | .schedule t _ _ task => if w.free t then (sort task).toList else []
  | _ => []

/-- The tasks of the sort that have been started. -/
def startedOf (sort : Task α → Option β) (log : List (WorkerEvent α)) : List β :=
  (starts log).filterMap fun e => sort e.task

/-- A step schedules a task of the sort on the one thread only, with the one delay, and waits for
    room. -/
def WorkerInput.Keeps (sort : Task α → Option β) (t : Thread) (delay : Int) :
    WorkerInput α → Prop
  | .schedule t' blocking delay' task =>
    (sort task).isSome → t' = t ∧ blocking = true ∧ delay' = delay
  | _ => True

structure Lane (sort : Task α → Option β) (t : Thread) (delay : Int) (w : Worker α) : Prop where
  threads : (w.calls.map Call.thread).Nodup
  ordered : w.tasks.Pairwise fun e f => e.timeToFire ≤ f.timeToFire
  calls : ∀ c ∈ w.calls, (sort c.task).isSome →
    c.thread = t ∧ c.blocking = true ∧ c.timeToFire ≤ w.now + delay ∧
      ∀ e ∈ w.tasks, (sort e.task).isSome → e.timeToFire ≤ c.timeToFire
  tasks : ∀ e ∈ w.tasks, (sort e.task).isSome → e.timeToFire ≤ w.now + delay

section Lane

variable {sort : Task α → Option β} {t : Thread} {delay : Int} {w : Worker α}

theorem Lane.new (sort : Task α → Option β) (t : Thread) (delay : Int) (capacity : Nat)
    (now : Int) : Lane sort t delay (Worker.new α capacity now) :=
  ⟨List.nodup_nil, List.Pairwise.nil, fun _ h => absurd h List.not_mem_nil,
    fun _ h => absurd h List.not_mem_nil⟩

theorem filterMap_cons_toList {γ : Type} (f : γ → Option β) (x : γ) (xs : List γ) :
    (x :: xs).filterMap f = (f x).toList ++ xs.filterMap f := by
  rw [List.filterMap_cons]
  cases f x <;> rfl

/-- In a call of the thread. -/
theorem Lane.called (h : Lane sort t delay w) {c : Call α} (hfree : w.free c.thread = true)
    (htime : c.timeToFire = w.now + c.delay)
    (hkeeps : (sort c.task).isSome → c.thread = t ∧ c.blocking = true ∧ c.delay = delay) :
    Lane sort t delay { w with calls := c :: w.calls } ∧
      lane sort { w with calls := c :: w.calls } = lane sort w ++ (sort c.task).toList := by
  have hnone : w.callOf c.thread = none := Option.isNone_iff_eq_none.mp (Bool.and_eq_true _ _ ▸ hfree).1
  have hother : ∀ d ∈ w.calls, d.thread ≠ c.thread := fun d hd hthread =>
    List.find?_eq_none.mp hnone d hd (decide_eq_true hthread)
  refine ⟨⟨?_, h.ordered, fun d hd hsome => ?_, h.tasks⟩, ?_⟩
  · refine List.nodup_cons.mpr ⟨fun hin => ?_, h.threads⟩
    obtain ⟨d, hd, hthread⟩ := List.mem_map.mp hin
    exact hother d hd hthread
  · rcases List.mem_cons.mp hd with rfl | hd
    · obtain ⟨hthread, hblocking, hdelay⟩ := hkeeps hsome
      rw [htime, hdelay]
      exact ⟨hthread, hblocking, le_refl _, fun e he hsome => h.tasks e he hsome⟩
    · exact h.calls d hd hsome
  · have hcons := filterMap_cons_toList (fun d : Call α => sort d.task) c w.calls
    show w.tasks.filterMap (fun e => sort e.task) ++ (c :: w.calls).filterMap (fun d => sort d.task) =
      lane sort w ++ (sort c.task).toList
    rw [hcons, lane, List.append_assoc]
    cases hc : sort c.task with
    | none => exact congrArg (_ ++ ·) (List.append_nil _).symm
    | some b =>
      -- the thread is in no other call, and only it schedules tasks of the sort
      have hempty : w.calls.filterMap (fun d => sort d.task) = [] := by
        refine List.filterMap_eq_nil_iff.mpr fun d hd => ?_
        by_contra hne
        have hthread := (h.calls d hd (Option.isSome_iff_ne_none.mpr hne)).1
        exact hother d hd (hthread.trans (hkeeps (by rw [hc]; rfl)).1.symm)
      rw [hempty]
      rfl

/-- A call that is in progress, and the others. -/
theorem calls_split (h : (w.calls.map Call.thread).Nodup) {c : Call α}
    (hcall : w.callOf c.thread = some c) : ∃ pre post, w.calls = pre ++ c :: post ∧
      w.calls.filter (·.thread ≠ c.thread) = pre ++ post := by
  obtain ⟨pre, post, hsplit⟩ := List.append_of_mem (List.mem_of_find?_eq_some hcall)
  have hothers : ∀ d ∈ pre ++ post, decide (d.thread ≠ c.thread) = true := by
    rw [hsplit, List.map_append, List.map_cons, List.nodup_middle] at h
    intro d hd
    refine decide_eq_true fun hthread => (List.nodup_cons.mp h).1 ?_
    rw [← hthread, ← List.map_append]
    exact List.mem_map_of_mem hd
  refine ⟨pre, post, hsplit, ?_⟩
  have hc : decide (c.thread ≠ c.thread) = false := decide_eq_false fun hne => hne rfl
  rw [hsplit, List.filter_append, List.filter_cons, hc, if_neg Bool.false_ne_true,
    ← List.filter_append]
  exact List.filter_eq_self.mpr hothers

/-- The other calls go on. -/
theorem Lane.keep_calls (h : Lane sort t delay w) (u : Thread) :
    Lane sort t delay { w with calls := w.calls.filter (·.thread ≠ u) } :=
  ⟨(List.filter_sublist.map _).nodup h.threads, h.ordered,
    fun c hc => h.calls c (List.mem_of_mem_filter hc), h.tasks⟩

/-- In the section of a call. -/
theorem Lane.inserted (h : Lane sort t delay w) {c : Call α}
    (hcall : w.callOf c.thread = some c) (next : Nat) :
    Lane sort t delay { w with
      tasks := insertBehind Entry.timeToFire (w.entry c) w.tasks, next := next,
      calls := w.calls.filter (·.thread ≠ c.thread) } ∧
    lane sort { w with
      tasks := insertBehind Entry.timeToFire (w.entry c) w.tasks, next := next,
      calls := w.calls.filter (·.thread ≠ c.thread) } = lane sort w := by
  have hmem : c ∈ w.calls := List.mem_of_find?_eq_some hcall
  obtain ⟨pre, post, hsplit, hrest⟩ := calls_split h.threads hcall
  have htasks : (insertBehind Entry.timeToFire (w.entry c) w.tasks).filterMap
      (fun e => sort e.task) = w.tasks.filterMap (fun e => sort e.task) ++ (sort c.task).toList :=
    filterMap_insertBehind h.ordered fun hsome => (h.calls c hmem hsome).2.2.2
  refine ⟨⟨(List.filter_sublist.map _).nodup h.threads, insertBehind_sorted h.ordered, ?_, ?_⟩, ?_⟩
  · intro d hd hsome
    obtain ⟨hd, hne⟩ := List.mem_filter.mp hd
    obtain ⟨hthread, hblocking, htime, hlast⟩ := h.calls d hd hsome
    refine ⟨hthread, hblocking, htime, fun e he hsome' => ?_⟩
    rcases mem_insertBehind.mp he with rfl | he
    · -- both would be calls of the one thread
      have hsame := (h.calls c hmem hsome').1
      exact absurd (hthread.trans hsame.symm) (of_decide_eq_true hne)
    · exact hlast e he hsome'
  · intro e he hsome
    rcases mem_insertBehind.mp he with rfl | he
    · exact (h.calls c hmem hsome).2.2.1
    · exact h.tasks e he hsome
  · show (insertBehind Entry.timeToFire (w.entry c) w.tasks).filterMap (fun e => sort e.task) ++
      (w.calls.filter (·.thread ≠ c.thread)).filterMap (fun d => sort d.task) = lane sort w
    rw [htasks, hrest, lane, hsplit, List.filterMap_append, List.filterMap_append,
      filterMap_cons_toList, List.append_assoc]
    cases hc : sort c.task with
    | none => rfl
    | some b =>
      have hsame := (h.calls c hmem (by rw [hc]; rfl)).1
      have hempty : pre.filterMap (fun d => sort d.task) = [] := by
        refine List.filterMap_eq_nil_iff.mpr fun d hd => ?_
        by_contra hne
        have hd' : d ∈ w.calls.filter (·.thread ≠ c.thread) := hrest ▸ List.mem_append_left _ hd
        obtain ⟨hin, hother⟩ := List.mem_filter.mp hd'
        have hthread := (h.calls d hin (Option.isSome_iff_ne_none.mpr hne)).1
        exact of_decide_eq_true hother (hthread.trans hsame.symm)
      rw [hempty]
      rfl

/-- A task that is refused is of no such sort. -/
theorem Lane.refused (h : Lane sort t delay w) {c : Call α} (hcall : w.callOf c.thread = some c)
    (hblocking : c.blocking = false) :
    lane sort { w with calls := w.calls.filter (·.thread ≠ c.thread) } = lane sort w := by
  obtain ⟨pre, post, hsplit, hrest⟩ := calls_split h.threads hcall
  have hnone : sort c.task = none := by
    by_contra hne
    have hwaits :=
      (h.calls c (List.mem_of_find?_eq_some hcall) (Option.isSome_iff_ne_none.mpr hne)).2.1
    exact absurd (hwaits.symm.trans hblocking) Bool.true_eq_false.mp
  show w.tasks.filterMap (fun e => sort e.task) ++
    (w.calls.filter (·.thread ≠ c.thread)).filterMap (fun d => sort d.task) = lane sort w
  rw [hrest, lane, hsplit, List.filterMap_append, List.filterMap_append, filterMap_cons_toList, hnone]
  rfl

/-- The worker takes the first task. -/
theorem Lane.started (h : Lane sort t delay w) (e : Entry α) (es : List (Entry α))
    (phase : Phase α) (htasks : w.tasks = e :: es) :
    Lane sort t delay { w with tasks := es, phase := phase } ∧
      lane sort w ++ [] = startedOf sort [.started e w.now] ++
        lane sort { w with tasks := es, phase := phase } := by
  have hmem : ∀ f ∈ es, f ∈ w.tasks := fun f hf => htasks ▸ List.mem_cons_of_mem e hf
  refine ⟨⟨h.threads, ?_, fun c hc hsome => ?_, fun f hf => h.tasks f (hmem f hf)⟩, ?_⟩
  · have hordered := h.ordered
    rw [htasks] at hordered
    exact (List.pairwise_cons.mp hordered).2
  · obtain ⟨hthread, hblocking, htime, hlast⟩ := h.calls c hc hsome
    exact ⟨hthread, hblocking, htime, fun f hf => hlast f (hmem f hf)⟩
  · have hstarted : startedOf sort [.started e w.now] = (sort e.task).toList :=
      (filterMap_cons_toList (fun e : Entry α => sort e.task) e []).trans (List.append_nil _)
    rw [hstarted, List.append_nil, lane, htasks, filterMap_cons_toList, List.append_assoc]
    rfl

/-- A task has ended. -/
theorem Lane.phase (h : Lane sort t delay w) (phase : Phase α) :
    Lane sort t delay { w with phase := phase } := ⟨h.threads, h.ordered, h.calls, h.tasks⟩

/-- **One step**: what is scheduled goes to the end, and what is started comes from the front. -/
theorem Lane.step (h : Lane sort t delay w) {i : WorkerInput α} (hi : i.Keeps sort t delay) :
    Lane sort t delay (workerMachine.step w i).1 ∧
      lane sort w ++ i.queued sort w =
        startedOf sort (workerMachine.step w i).2 ++ lane sort (workerMachine.step w i).1 := by
  cases i with
  | schedule u blocking delay' task =>
    simp only [workerMachine, Worker.schedule, WorkerInput.queued]
    by_cases hfree : w.free u = true
    · rw [if_pos hfree, if_pos hfree]
      obtain ⟨hlane, hqueue⟩ := h.called (c := ⟨u, blocking, delay', w.now + delay', task⟩) hfree rfl hi
      exact ⟨hlane, hqueue.symm⟩
    · rw [if_neg hfree, if_neg hfree]
      exact ⟨h, List.append_nil _⟩
  | tick d =>
    refine ⟨⟨h.threads, h.ordered, fun c hc hsome => ?_, fun e he hsome => ?_⟩, List.append_nil _⟩
    · obtain ⟨hthread, hblocking, htime, hlast⟩ := h.calls c hc hsome
      exact ⟨hthread, hblocking, by show _ ≤ w.now + d + delay; omega, hlast⟩
    · have htime := h.tasks e he hsome
      show _ ≤ w.now + d + delay
      omega
  | lock u =>
    simp only [workerMachine, Worker.lock]
    cases hcall : w.callOf u with
    | none => exact ⟨h, List.append_nil _⟩
    | some c =>
      have hthread : c.thread = u := of_decide_eq_true (List.find?_some hcall :)
      subst hthread
      dsimp only
      by_cases hroom : w.tasks.length < w.capacity
      · rw [if_pos hroom]
        obtain ⟨hlane, hqueue⟩ := h.inserted hcall (w.next + 1)
        exact ⟨hlane, (List.append_nil _).trans hqueue.symm⟩
      · rw [if_neg hroom]
        cases hblocking : c.blocking with
        | true => exact ⟨h, List.append_nil _⟩
        | false =>
          refine ⟨h.keep_calls c.thread, (List.append_nil _).trans ?_⟩
          exact (h.refused hcall hblocking).symm
  | take =>
    simp only [workerMachine, Worker.getNextTask]
    cases w.phase with
    | waiting =>
      cases htasks : w.tasks with
      | nil => exact ⟨h, List.append_nil _⟩
      | cons e es =>
        dsimp only
        by_cases hdue : e.timeToFire ≤ w.now
        · rw [if_pos hdue]
          exact h.started e es (.running e) htasks
        · rw [if_neg hdue]
          exact ⟨h, List.append_nil _⟩
    | running e => exact ⟨h, List.append_nil _⟩
    | stopped => exact ⟨h, List.append_nil _⟩
  | finish exception =>
    simp only [workerMachine, Worker.finish]
    cases w.phase with
    | running e =>
      cases w.callOf .worker with
      | none =>
        cases exception with
        | none => exact ⟨h.phase _, List.append_nil _⟩
        | some what => exact ⟨h.phase _, List.append_nil _⟩
      | some c => exact ⟨h, List.append_nil _⟩
    | waiting => exact ⟨h, List.append_nil _⟩
    | stopped => exact ⟨h, List.append_nil _⟩

/-- Only `take` starts a task. -/
theorem starts_step (w : Worker α) {i : WorkerInput α} (hi : i ≠ .take) :
    starts (workerMachine.step w i).2 = [] := by
  cases i with
  | tick d => rfl
  | schedule u blocking delay' task =>
    simp only [workerMachine, Worker.schedule]
    split <;> rfl
  | lock u =>
    simp only [workerMachine, Worker.lock]
    cases w.callOf u with
    | none => rfl
    | some c =>
      dsimp only
      split
      · rfl
      · split <;> rfl
  | take => exact absurd rfl hi
  | finish exception =>
    simp only [workerMachine, Worker.finish]
    cases w.phase with
    | running e =>
      cases w.callOf .worker with
      | none => cases exception <;> rfl
      | some c => rfl
    | waiting => rfl
    | stopped => rfl

/-- A step that neither puts a task into the queue nor takes one. -/
theorem Lane.still (h : Lane sort t delay w) {i : WorkerInput α} (hi : i.Keeps sort t delay)
    (hqueued : i.queued sort w = []) (htake : i ≠ .take) :
    Lane sort t delay (workerMachine.step w i).1 ∧
      lane sort (workerMachine.step w i).1 = lane sort w := by
  obtain ⟨hlane, hqueue⟩ := h.step hi
  refine ⟨hlane, ?_⟩
  rw [hqueued, startedOf, starts_step w htake, List.append_nil] at hqueue
  exact hqueue.symm

/-- The thread schedules a task of the sort. -/
theorem Lane.scheduled (h : Lane sort t delay w) (task : Task α) {x : β} (hfree : w.free t = true)
    (hsort : sort task = some x) :
    Lane sort t delay (workerMachine.step w (.schedule t true delay task)).1 ∧
      lane sort (workerMachine.step w (.schedule t true delay task)).1 = lane sort w ++ [x] := by
  have hkeeps : (WorkerInput.schedule t true delay task).Keeps sort t delay :=
    fun _ => ⟨rfl, rfl, rfl⟩
  obtain ⟨hlane, hqueue⟩ := h.step hkeeps
  refine ⟨hlane, ?_⟩
  have hquiet : starts (workerMachine.step w (.schedule t true delay task)).2 = [] :=
    starts_step w fun heq => by cases heq
  rw [WorkerInput.queued, if_pos hfree, hsort, startedOf, hquiet] at hqueue
  exact hqueue.symm

/-- A task that is not of the sort can be scheduled by any thread, with any delay. -/
theorem keeps_schedule {u : Thread} {blocking : Bool} {delay' : Int} {task : Task α}
    (h : sort task = none) : (WorkerInput.schedule u blocking delay' task).Keeps sort t delay := by
  intro hsome
  rw [h] at hsome
  exact absurd hsome Bool.false_ne_true

theorem queued_schedule {u : Thread} {blocking : Bool} {delay' : Int} {task : Task α}
    (h : sort task = none) : (WorkerInput.schedule u blocking delay' task).queued sort w = [] := by
  rw [WorkerInput.queued, h]
  split <;> rfl

end Lane

/-! ## 2. All tasks -/

/-- Every task that waits, or is about to be inserted. -/
structure All (P : Task α → Prop) (w : Worker α) : Prop where
  tasks : ∀ e ∈ w.tasks, P e.task
  calls : ∀ c ∈ w.calls, P c.task

/-- The task that a step brings. -/
def WorkerInput.Brings (P : Task α → Prop) : WorkerInput α → Prop
  | .schedule _ _ _ task => P task
  | _ => True

section All

variable {P : Task α → Prop} {w : Worker α}

theorem All.new (P : Task α → Prop) (capacity : Nat) (now : Int) :
    All P (Worker.new α capacity now) :=
  ⟨fun _ h => absurd h List.not_mem_nil, fun _ h => absurd h List.not_mem_nil⟩

theorem All.mono {Q : Task α → Prop} (hPQ : ∀ t, P t → Q t) (h : All P w) : All Q w :=
  ⟨fun e he => hPQ _ (h.tasks e he), fun c hc => hPQ _ (h.calls c hc)⟩

/-- **Tasks come from calls only.** -/
theorem All.step (h : All P w) {i : WorkerInput α} (hi : i.Brings P) :
    All P (workerMachine.step w i).1 := by
  have hstep := step_cases w i
  generalize workerMachine.step w i = after at hstep ⊢
  cases hstep with
  | idle => exact h
  | tick d => exact ⟨h.tasks, h.calls⟩
  | called c _ _ heq =>
    rw [heq] at hi
    exact ⟨h.tasks, List.forall_mem_cons.mpr ⟨hi, h.calls⟩⟩
  | refused c _ _ _ => exact ⟨h.tasks, fun d hd => h.calls d (List.mem_of_mem_filter hd)⟩
  | inserted c hcall _ =>
    refine ⟨fun e he => ?_, fun d hd => h.calls d (List.mem_of_mem_filter hd)⟩
    rcases mem_insertBehind.mp he with rfl | he
    · exact h.calls c (List.mem_of_find?_eq_some hcall)
    · exact h.tasks e he
  | started e es _ htasks _ =>
    exact ⟨fun f hf => h.tasks f (htasks ▸ List.mem_cons_of_mem e hf), h.calls⟩
  | finished e exception _ _ => exact ⟨h.tasks, h.calls⟩

/-- The task that is taken is one of them. -/
theorem All.started (h : All P w) {e : Entry α} {es : List (Entry α)} (htasks : w.tasks = e :: es)
    (phase : Phase α) : P e.task ∧ All P { w with tasks := es, phase := phase } :=
  ⟨h.tasks e (htasks ▸ List.mem_cons_self),
    fun f hf => h.tasks f (htasks ▸ List.mem_cons_of_mem e hf), h.calls⟩

end All

end Veridie.Dispatch
