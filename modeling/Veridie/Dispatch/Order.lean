/-
  File:      Veridie/Dispatch/Order.lean
  Subject:   What a worker executes, and in which order, however the threads interleave.

  * `Step` -- everything that a step can do;
  * `Kept` -- the tasks that were inserted are those that have been started and those that wait, and
    none has overtaken another; `worker_in_order`;
  * `Timely` -- what a thread inserts comes from ever later readings of the clock; `worker_fifo`;
  * `worker_stops` -- what has been executed when the worker is stopped;
  * `worker_drains` -- a worker that is left alone executes what is due;
  * `worker_blocks_itself` -- a task that waits for room on its own worker waits for ever.
-/
import Veridie.Dispatch.Worker

namespace Veridie.Dispatch

open Veridie.Lib

variable {α : Type}

/-! ## 1. Steps -/

def WorkerEvent.inserted? : WorkerEvent α → Option (Call α × Entry α)
  | .inserted c e => some (c, e)
  | .refused _ | .started _ _ | .finished _ | .caught _ => none

def WorkerEvent.started? : WorkerEvent α → Option (Entry α)
  | .started e _ => some e
  | .inserted _ _ | .refused _ | .finished _ | .caught _ => none

/-- The tasks that have been inserted, with their calls. -/
def insertions (log : List (WorkerEvent α)) : List (Call α × Entry α) :=
  log.filterMap WorkerEvent.inserted?

/-- The tasks that have been started. -/
def starts (log : List (WorkerEvent α)) : List (Entry α) := log.filterMap WorkerEvent.started?

/-- The element that a call inserts. -/
def Worker.entry (w : Worker α) (c : Call α) : Entry α := ⟨c.timeToFire, w.next, c.task⟩

/-- Everything that a step can do: the clock or the calls change, a call inserts its task, the worker
    starts the first one, a task ends. -/
inductive Step (w : Worker α) (i : WorkerInput α) : Worker α × List (WorkerEvent α) → Prop where
  | idle : Step w i (w, [])
  | tick (d : Nat) : Step w i ({ w with now := w.now + d }, [])
  | called (c : Call α) (hfree : w.free c.thread = true) (htime : c.timeToFire = w.now + c.delay)
      (hi : i = .schedule c.thread c.blocking c.delay c.task) :
      Step w i ({ w with calls := c :: w.calls }, [])
  | refused (c : Call α) (hcall : w.callOf c.thread = some c) (hfull : w.capacity ≤ w.tasks.length)
      (hblocking : c.blocking = false) :
      Step w i ({ w with calls := w.calls.filter (·.thread ≠ c.thread) }, [.refused c])
  | inserted (c : Call α) (hcall : w.callOf c.thread = some c) (hroom : w.tasks.length < w.capacity) :
      Step w i ({ w with
          tasks := insertBehind Entry.timeToFire (w.entry c) w.tasks, next := w.next + 1,
          calls := w.calls.filter (·.thread ≠ c.thread) },
        [.inserted c (w.entry c)])
  | started (e : Entry α) (es : List (Entry α)) (hphase : w.phase = .waiting)
      (htasks : w.tasks = e :: es) (hdue : e.timeToFire ≤ w.now) :
      Step w i ({ w with tasks := es, phase := .running e }, [.started e w.now])
  | finished (e : Entry α) (exception : Option Str) (hphase : w.phase = .running e)
      (hcall : w.callOf .worker = none) :
      Step w i ({ w with phase := if e.task.isStop then .stopped else .waiting },
        (exception.map WorkerEvent.caught).toList ++ [.finished e])

theorem step_cases (w : Worker α) (i : WorkerInput α) : Step w i (workerMachine.step w i) := by
  cases i with
  | tick d => exact .tick d
  | schedule t blocking delay task =>
    simp only [workerMachine, Worker.schedule]
    by_cases hfree : w.free t = true
    · rw [if_pos hfree]
      exact .called ⟨t, blocking, delay, w.now + delay, task⟩ hfree rfl rfl
    · rw [if_neg hfree]
      exact .idle
  | lock t =>
    simp only [workerMachine, Worker.lock]
    cases hcall : w.callOf t with
    | none => exact .idle
    | some c =>
      have hthread : c.thread = t := of_decide_eq_true (List.find?_some hcall :)
      subst hthread
      dsimp only
      by_cases hroom : w.tasks.length < w.capacity
      · rw [if_pos hroom]
        exact .inserted c hcall hroom
      · rw [if_neg hroom]
        cases hblocking : c.blocking with
        | true => exact .idle
        | false => exact .refused c hcall (Nat.not_lt.mp hroom) hblocking
  | take =>
    simp only [workerMachine, Worker.getNextTask]
    cases hphase : w.phase with
    | waiting =>
      cases htasks : w.tasks with
      | nil => exact .idle
      | cons e es =>
        dsimp only
        by_cases hdue : e.timeToFire ≤ w.now
        · rw [if_pos hdue]
          exact .started e es hphase htasks hdue
        · rw [if_neg hdue]
          exact .idle
    | running e => exact .idle
    | stopped => exact .idle
  | finish exception =>
    simp only [workerMachine, Worker.finish]
    cases hphase : w.phase with
    | running e =>
      cases hcall : w.callOf .worker with
      | none =>
        cases exception with
        | none => exact .finished e none hphase hcall
        | some what => exact .finished e (some what) hphase hcall
      | some c => exact .idle
    | waiting => exact .idle
    | stopped => exact .idle

theorem Step.capacity {w : Worker α} {i : WorkerInput α}
    {after : Worker α × List (WorkerEvent α)} (h : Step w i after) : after.1.capacity = w.capacity := by
  cases h <;> rfl

/-! ## 2. Nothing is lost, and nothing overtakes -/

/-- The order of the numbers and of the times disagrees with the one in which they were started. -/
abbrev Passes (x y : Entry α) : Prop := Overtakes Entry.timeToFire Entry.num x y

structure Kept (w : Worker α) (log : List (WorkerEvent α)) : Prop where
  all : (starts log ++ w.tasks).Perm ((insertions log).map Prod.snd)
  numbered : (insertions log).map (fun p => p.2.num) = List.range w.next
  ordered : w.tasks.Pairwise (Earlier Entry.timeToFire Entry.num)
  kept : (starts log ++ w.tasks).Pairwise (fun x y => ¬ Passes x y)
  room : w.tasks.length ≤ w.capacity
  due : ∀ e t, .started e t ∈ log → e.timeToFire ≤ t

section Kept

variable {w w' : Worker α} {log evs : List (WorkerEvent α)}

theorem Kept.new (capacity : Nat) (now : Int) : Kept (Worker.new α capacity now) [] :=
  ⟨List.Perm.refl _, rfl, List.Pairwise.nil, List.Pairwise.nil, Nat.zero_le _,
    fun _ _ h => absurd h List.not_mem_nil⟩

/-- A step that neither inserts nor starts. -/
theorem Kept.still (h : Kept w log) (htasks : w'.tasks = w.tasks) (hnext : w'.next = w.next)
    (hcapacity : w'.capacity = w.capacity) (hinserted : insertions evs = [])
    (hstarted : ∀ e ∈ evs, e.started? = none) : Kept w' (log ++ evs) := by
  have hstarts : starts (log ++ evs) = starts log := by
    rw [starts, List.filterMap_append, List.filterMap_eq_nil_iff.mpr hstarted, List.append_nil]
    rfl
  have hinsertions : insertions (log ++ evs) = insertions log := by
    rw [insertions, List.filterMap_append]
    exact (congrArg (insertions log ++ ·) hinserted).trans (List.append_nil _)
  refine ⟨?_, ?_, ?_, ?_, ?_, fun e t hin => ?_⟩
  · rw [hstarts, hinsertions, htasks]
    exact h.all
  · rw [hinsertions, hnext]
    exact h.numbered
  · rw [htasks]
    exact h.ordered
  · rw [hstarts, htasks]
    exact h.kept
  · rw [htasks, hcapacity]
    exact h.room
  · rcases List.mem_append.mp hin with hin | hin
    · exact h.due e t hin
    · exact nomatch hstarted _ hin

/-- The numbers that have been given. -/
theorem Kept.num_lt (h : Kept w log) {e : Entry α} (he : e ∈ starts log ++ w.tasks) :
    e.num < w.next := by
  obtain ⟨p, hp, rfl⟩ := List.mem_map.mp (h.all.mem_iff.mp he)
  have hnum : p.2.num ∈ (insertions log).map (fun p => p.2.num) := List.mem_map_of_mem hp
  rw [h.numbered] at hnum
  exact List.mem_range.mp hnum

theorem Kept.insert (h : Kept w log) (c : Call α) (calls : List (Call α))
    (hroom : w.tasks.length < w.capacity) :
    Kept { w with
      tasks := insertBehind Entry.timeToFire (w.entry c) w.tasks, next := w.next + 1, calls := calls }
      (log ++ [.inserted c (w.entry c)]) := by
  have hstarts : starts (log ++ [.inserted c (w.entry c)]) = starts log := by
    rw [starts, List.filterMap_append]
    exact List.append_nil _
  have hinsertions : insertions (log ++ [.inserted c (w.entry c)]) =
      insertions log ++ [(c, w.entry c)] := by
    rw [insertions, List.filterMap_append]
    rfl
  have hnums : ∀ y ∈ w.tasks, y.num < (w.entry c).num := fun y hy =>
    h.num_lt (List.mem_append_right _ hy)
  have hordered : (insertBehind Entry.timeToFire (w.entry c) w.tasks).Pairwise
      (Earlier Entry.timeToFire Entry.num) := insertBehind_pairwise h.ordered hnums
  obtain ⟨hstarted, _, hbetween⟩ := List.pairwise_append.mp h.kept
  refine ⟨?_, ?_, hordered, ?_, ?_, fun e t hin => ?_⟩
  · rw [hstarts, hinsertions, List.map_append]
    have hperm := (@insertBehind_perm _ _ _ Entry.timeToFire (w.entry c) w.tasks).append_left
      (starts log)
    exact (hperm.trans List.perm_middle).trans
      ((h.all.cons (w.entry c)).trans (List.perm_append_singleton _ _).symm)
  · rw [hinsertions, List.map_append, h.numbered]
    exact List.range_succ.symm
  · rw [hstarts]
    refine List.pairwise_append.mpr
      ⟨hstarted, hordered.imp fun hearlier => hearlier.not_overtakes, fun x hx y hy => ?_⟩
    rcases mem_insertBehind.mp hy with rfl | hy
    · intro hpasses
      exact absurd hpasses.1 (Nat.lt_asymm (h.num_lt (List.mem_append_left _ hx)))
    · exact hbetween x hx y hy
  · rw [length_insertBehind]
    exact hroom
  · rcases List.mem_append.mp hin with hin | hin
    · exact h.due e t hin
    · exact nomatch List.mem_singleton.mp hin

theorem Kept.start (h : Kept w log) {e : Entry α} {es : List (Entry α)} (phase : Phase α)
    (htasks : w.tasks = e :: es) (hdue : e.timeToFire ≤ w.now) :
    Kept { w with tasks := es, phase := phase } (log ++ [.started e w.now]) := by
  have hstarts : starts (log ++ [.started e w.now]) = starts log ++ [e] := by
    rw [starts, List.filterMap_append]
    rfl
  have hinsertions : insertions (log ++ [.started e w.now]) = insertions log := by
    rw [insertions, List.filterMap_append]
    exact List.append_nil _
  have hsplit : starts log ++ [e] ++ es = starts log ++ w.tasks := by
    rw [htasks, List.append_assoc, List.singleton_append]
  refine ⟨?_, ?_, ?_, ?_, ?_, fun f t hin => ?_⟩
  · rw [hstarts, hinsertions, hsplit]
    exact h.all
  · rw [hinsertions]
    exact h.numbered
  · have hordered := h.ordered
    rw [htasks] at hordered
    exact (List.pairwise_cons.mp hordered).2
  · rw [hstarts, hsplit]
    exact h.kept
  · have hroom := h.room
    rw [htasks, List.length_cons] at hroom
    exact Nat.le_of_succ_le hroom
  · rcases List.mem_append.mp hin with hin | hin
    · exact h.due f t hin
    · cases List.mem_singleton.mp hin
      exact hdue

theorem Kept.step (h : Kept w log) (i : WorkerInput α) :
    Kept (workerMachine.step w i).1 (log ++ (workerMachine.step w i).2) := by
  have hstep := step_cases w i
  generalize workerMachine.step w i = after at hstep ⊢
  cases hstep with
  | idle => exact h.still rfl rfl rfl rfl (List.forall_mem_nil _)
  | tick d => exact h.still rfl rfl rfl rfl (List.forall_mem_nil _)
  | called c _ _ _ => exact h.still rfl rfl rfl rfl (List.forall_mem_nil _)
  | refused c _ _ _ => exact h.still rfl rfl rfl rfl (List.forall_mem_singleton.mpr rfl)
  | inserted c _ hroom => exact h.insert c _ hroom
  | started e es _ htasks hdue => exact h.start _ htasks hdue
  | finished e exception _ _ =>
    cases exception with
    | none => exact h.still rfl rfl rfl rfl (List.forall_mem_singleton.mpr rfl)
    | some what =>
      refine h.still rfl rfl rfl rfl fun ev hev => ?_
      rcases List.mem_cons.mp hev with rfl | hev
      · rfl
      · rw [List.mem_singleton.mp hev]
        rfl

theorem kept_run (capacity : Nat) (now : Int) (is : List (WorkerInput α)) :
    Kept (workerMachine.exec (Worker.new α capacity now) is)
      (workerMachine.outs (Worker.new α capacity now) is) :=
  Machine.log_invariant (fun _ _ i h => h.step i) (Kept.new capacity now) is

/-- No two tasks have the same number. -/
theorem Kept.nums_nodup (h : Kept w log) :
    (((insertions log).map Prod.snd).map Entry.num).Nodup := by
  rw [List.map_map]
  exact h.numbered ▸ List.nodup_range

theorem Kept.nums_ne (h : Kept w log) :
    (starts log ++ w.tasks).Pairwise fun x y => x.num ≠ y.num :=
  List.pairwise_map.mp ((h.all.map Entry.num).nodup_iff.mpr h.nums_nodup)

/-- Of two tasks, the one that was inserted first and is due no later has been started first. -/
theorem Kept.in_order (h : Kept w log) {c : Call α} {e f : Entry α} (he : (c, e) ∈ insertions log)
    (hf : f ∈ starts log) (hnum : e.num < f.num) (htime : e.timeToFire ≤ f.timeToFire) :
    [e, f].Sublist (starts log) := by
  have hne : e ≠ f := fun heq => absurd hnum (heq ▸ Nat.lt_irrefl _)
  have hin : e ∈ starts log := by
    have hmem : e ∈ starts log ++ w.tasks := h.all.mem_iff.mpr (List.mem_map.mpr ⟨_, he, rfl⟩)
    rcases List.mem_append.mp hmem with hin | hin
    · exact hin
    · exact absurd ⟨hnum, htime⟩ ((List.pairwise_append.mp h.kept).2.2 f hf e hin)
  exact sublist_of_pairwise (List.pairwise_append.mp h.kept).1 hin hf hne
    (not_not.mpr ⟨hnum, htime⟩)

end Kept

/-- A worker after a run, and what was seen of it. -/
def workerAfter (capacity : Nat) (now : Int) (is : List (WorkerInput α)) : Worker α :=
  workerMachine.exec (Worker.new α capacity now) is

def workerLog (capacity : Nat) (now : Int) (is : List (WorkerInput α)) : List (WorkerEvent α) :=
  workerMachine.outs (Worker.new α capacity now) is

theorem capacity_run (capacity : Nat) (now : Int) (is : List (WorkerInput α)) :
    (workerAfter capacity now is).capacity = capacity :=
  Machine.invariant (P := fun w : Worker α => w.capacity = capacity)
    (fun w i hw => (step_cases w i).capacity.trans hw) rfl is

/-- **A worker executes what it is given**: in every run, each task that was inserted has been started
    once or still waits, and there are never more of them waiting than its capacity; no task is
    started before its time; and of two tasks, the one that was inserted first and is due no later is
    started first. -/
theorem worker_in_order (capacity : Nat) (now : Int) (is : List (WorkerInput α)) :
    (starts (workerLog capacity now is) ++ (workerAfter capacity now is).tasks).Perm
      ((insertions (workerLog capacity now is)).map Prod.snd) ∧
    ((insertions (workerLog capacity now is)).map Prod.snd).Nodup ∧
    (workerAfter capacity now is).tasks.length ≤ capacity ∧
    (∀ e t, .started e t ∈ workerLog capacity now is → e.timeToFire ≤ t) ∧
    ∀ c e f, (c, e) ∈ insertions (workerLog capacity now is) →
      f ∈ starts (workerLog capacity now is) → e.num < f.num → e.timeToFire ≤ f.timeToFire →
      [e, f].Sublist (starts (workerLog capacity now is)) := by
  have h : Kept (workerAfter capacity now is) (workerLog capacity now is) := kept_run capacity now is
  refine ⟨h.all, ?_, h.room.trans (le_of_eq (capacity_run capacity now is)), h.due,
    fun c e f he hf => h.in_order he hf⟩
  exact h.nums_nodup.of_map

/-! ## 3. The tasks of one thread -/

/-- When the call read the clock. -/
def Call.read (c : Call α) : Int := c.timeToFire - c.delay

/-- A thread is in one call at a time, and the clock does not go back. -/
structure Timely (w : Worker α) (log : List (WorkerEvent α)) : Prop where
  calls_past : ∀ c ∈ w.calls, c.read ≤ w.now
  past : ∀ p ∈ insertions log, p.1.read ≤ w.now
  entry : ∀ p ∈ insertions log, p.2.timeToFire = p.1.timeToFire
  later : ∀ p ∈ insertions log, ∀ c ∈ w.calls, p.1.thread = c.thread → p.1.read ≤ c.read
  ordered : (insertions log).Pairwise fun p q => p.1.thread = q.1.thread → p.1.read ≤ q.1.read

section Timely

variable {w w' : Worker α} {log evs : List (WorkerEvent α)}

theorem Timely.new (capacity : Nat) (now : Int) : Timely (Worker.new α capacity now) [] :=
  ⟨List.forall_mem_nil _, List.forall_mem_nil _, List.forall_mem_nil _, List.forall_mem_nil _,
    List.Pairwise.nil⟩

/-- A step that inserts nothing and calls nothing. -/
theorem Timely.still (h : Timely w log) (hcalls : ∀ c ∈ w'.calls, c ∈ w.calls)
    (hnow : w.now ≤ w'.now) (hinserted : insertions evs = []) : Timely w' (log ++ evs) := by
  have hinsertions : insertions (log ++ evs) = insertions log := by
    rw [insertions, List.filterMap_append]
    exact (congrArg (insertions log ++ ·) hinserted).trans (List.append_nil _)
  refine ⟨fun c hc => (h.calls_past c (hcalls c hc)).trans hnow, fun p hp => ?_, fun p hp => ?_,
    fun p hp c hc => ?_, ?_⟩
  · rw [hinsertions] at hp
    exact (h.past p hp).trans hnow
  · rw [hinsertions] at hp
    exact h.entry p hp
  · rw [hinsertions] at hp
    exact h.later p hp c (hcalls c hc)
  · rw [hinsertions]
    exact h.ordered

theorem Timely.call (h : Timely w log) {c : Call α} (htime : c.timeToFire = w.now + c.delay) :
    Timely { w with calls := c :: w.calls } log := by
  have hread : c.read = w.now := by
    rw [Call.read, htime, Int.add_sub_cancel]
  refine ⟨fun d hd => ?_, h.past, h.entry, fun p hp d hd hthread => ?_, h.ordered⟩
  · rcases List.mem_cons.mp hd with rfl | hd
    · exact le_of_eq hread
    · exact h.calls_past d hd
  · rcases List.mem_cons.mp hd with rfl | hd
    · exact hread ▸ h.past p hp
    · exact h.later p hp d hd hthread

theorem Timely.insert (h : Timely w log) {c : Call α} (hcall : w.callOf c.thread = some c)
    (tasks : List (Entry α)) (next : Nat) :
    Timely { w with tasks := tasks, next := next, calls := w.calls.filter (·.thread ≠ c.thread) }
      (log ++ [.inserted c (w.entry c)]) := by
  have hmem : c ∈ w.calls := List.mem_of_find?_eq_some hcall
  have hinsertions : insertions (log ++ [.inserted c (w.entry c)]) =
      insertions log ++ [(c, w.entry c)] := by
    rw [insertions, List.filterMap_append]
    rfl
  refine ⟨fun d hd => h.calls_past d (List.mem_of_mem_filter hd), fun p hp => ?_, fun p hp => ?_,
    fun p hp d hd hthread => ?_, ?_⟩
  · rw [hinsertions] at hp
    rcases List.mem_append.mp hp with hp | hp
    · exact h.past p hp
    · rw [List.mem_singleton.mp hp]
      exact h.calls_past c hmem
  · rw [hinsertions] at hp
    rcases List.mem_append.mp hp with hp | hp
    · exact h.entry p hp
    · rw [List.mem_singleton.mp hp]
      rfl
  · rw [hinsertions] at hp
    obtain ⟨hd, hne⟩ := List.mem_filter.mp hd
    rcases List.mem_append.mp hp with hp | hp
    · exact h.later p hp d hd hthread
    · rw [List.mem_singleton.mp hp] at hthread
      exact absurd hthread.symm (of_decide_eq_true hne)
  · rw [hinsertions]
    refine List.pairwise_append.mpr
      ⟨h.ordered, List.pairwise_singleton _ _, fun p hp q hq hthread => ?_⟩
    rw [List.mem_singleton.mp hq] at hthread ⊢
    exact h.later p hp c hmem hthread

theorem Timely.step (h : Timely w log) (i : WorkerInput α) :
    Timely (workerMachine.step w i).1 (log ++ (workerMachine.step w i).2) := by
  have hstep := step_cases w i
  generalize workerMachine.step w i = after at hstep ⊢
  cases hstep with
  | idle => exact h.still (fun _ hc => hc) (le_refl _) rfl
  | tick d => exact h.still (fun _ hc => hc) (Int.le_add_of_nonneg_right (Int.natCast_nonneg d)) rfl
  | called c _ htime _ =>
    rw [List.append_nil]
    exact h.call htime
  | refused c _ _ _ => exact h.still (fun _ hc => List.mem_of_mem_filter hc) (le_refl _) rfl
  | inserted c hcall _ => exact h.insert hcall _ _
  | started e es _ _ _ => exact h.still (fun _ hc => hc) (le_refl _) rfl
  | finished e exception _ _ =>
    cases exception with
    | none => exact h.still (fun _ hc => hc) (le_refl _) rfl
    | some what => exact h.still (fun _ hc => hc) (le_refl _) rfl

theorem timely_run (capacity : Nat) (now : Int) (is : List (WorkerInput α)) :
    Timely (workerAfter capacity now is) (workerLog capacity now is) :=
  Machine.log_invariant (fun _ _ i h => h.step i) (Timely.new capacity now) is

end Timely

/-- What a thread has inserted with some delay, in the order of insertion. -/
def insertedBy (t : Thread) (delay : Int) (log : List (WorkerEvent α)) : List (Entry α) :=
  ((insertions log).filter fun p => p.1.thread = t && p.1.delay = delay).map Prod.snd

section Fifo

variable {w : Worker α} {log : List (WorkerEvent α)}

/-- What a thread inserts with the same delay is due in the order of insertion. -/
theorem Timely.grows (ht : Timely w log) (h : Kept w log) (t : Thread) (delay : Int) :
    (insertedBy t delay log).Pairwise fun x y => x.num < y.num ∧ x.timeToFire ≤ y.timeToFire := by
  have hnums : (insertions log).Pairwise fun p q => p.2.num < q.2.num := by
    have hrange := List.pairwise_lt_range (n := w.next)
    rw [← h.numbered] at hrange
    exact List.pairwise_map.mp hrange
  rw [insertedBy, List.pairwise_map]
  refine ((hnums.and ht.ordered).filter _).imp_of_mem fun {p q} hp hq hpq => ⟨hpq.1, ?_⟩
  obtain ⟨hp, hpt⟩ := List.mem_filter.mp hp
  obtain ⟨hq, hqt⟩ := List.mem_filter.mp hq
  rw [Bool.and_eq_true, decide_eq_true_eq, decide_eq_true_eq] at hpt hqt
  have hread := hpq.2 (hpt.1.trans hqt.1.symm)
  rw [Call.read, Call.read, hpt.2, hqt.2] at hread
  rw [ht.entry p hp, ht.entry q hq]
  exact Int.sub_le_sub_right_iff.mp hread

theorem Kept.mem_insertedBy (h : Kept w log) {t : Thread} {delay : Int} {e : Entry α}
    (he : e ∈ insertedBy t delay log) : e ∈ starts log ++ w.tasks := by
  obtain ⟨p, hp, rfl⟩ := List.mem_map.mp he
  exact h.all.mem_iff.mpr (List.mem_map_of_mem (List.mem_of_mem_filter hp))

/-- What a thread inserts with the same delay is first what has been started, in the order of insertion,
    and then what still waits. -/
theorem Kept.fifo (h : Kept w log) (ht : Timely w log) (t : Thread) (delay : Int) :
    ∃ done rest, insertedBy t delay log = done ++ rest ∧ done.Sublist (starts log) ∧
      rest.Sublist w.tasks := by
  classical
  have hgrows := ht.grows h t delay
  have hall : ∀ e, e ∈ insertedBy t delay log → _ := fun e => h.mem_insertedBy
  obtain ⟨mine, hmine⟩ : ∃ mine, insertedBy t delay log = mine := ⟨_, rfl⟩
  rw [hmine] at hgrows hall
  obtain ⟨hstarted, hwaiting, hbetween⟩ := List.pairwise_append.mp h.kept
  obtain ⟨hnumsStarted, hnumsWaiting, _⟩ := List.pairwise_append.mp h.nums_ne
  have hprefix : mine.filter (fun e => decide (e ∈ starts log)) <+: mine := by
    refine filter_prefix (hgrows.imp_of_mem fun {x y} hx hy hxy hstart => ?_)
    rcases List.mem_append.mp (hall x hx) with hin | hin
    · exact decide_eq_true hin
    · exact absurd ⟨hxy.1, hxy.2⟩ (hbetween y (of_decide_eq_true hstart) x hin)
  obtain ⟨rest, hsplit⟩ := hprefix
  have hparts := hgrows
  rw [← hsplit] at hparts
  obtain ⟨hdone, hrest, hcross⟩ := List.pairwise_append.mp hparts
  refine ⟨_, rest, hmine.trans hsplit.symm, ?_, ?_⟩
  · exact sublist_of_not_overtakes hstarted hnumsStarted hdone fun x hx =>
      of_decide_eq_true (List.mem_filter.mp hx).2
  · refine sublist_of_not_overtakes hwaiting hnumsWaiting hrest fun x hx => ?_
    have hxm : x ∈ mine := hsplit ▸ List.mem_append_right _ hx
    rcases List.mem_append.mp (hall x hxm) with hin | hin
    · have hdone : x ∈ mine.filter fun e => decide (e ∈ starts log) :=
        List.mem_filter.mpr ⟨hxm, decide_eq_true hin⟩
      exact absurd (hcross x hdone x hx).1 (Nat.lt_irrefl _)
    · exact hin

/-- The delays that a thread asks for. -/
def WorkerInput.Asks (ok : Thread → Int → Prop) : WorkerInput α → Prop
  | .schedule t _ delay _ => ok t delay
  | _ => True

/-- What is inserted, or is about to be, has been asked for. -/
structure Asked (ok : Thread → Int → Prop) (w : Worker α) (log : List (WorkerEvent α)) : Prop where
  calls : ∀ c ∈ w.calls, ok c.thread c.delay
  inserted : ∀ p ∈ insertions log, ok p.1.thread p.1.delay

theorem Asked.still {ok : Thread → Int → Prop} {w' : Worker α} {evs : List (WorkerEvent α)}
    (h : Asked ok w log) (hcalls : ∀ c ∈ w'.calls, c ∈ w.calls) (hevs : insertions evs = []) :
    Asked ok w' (log ++ evs) := by
  refine ⟨fun c hc => h.calls c (hcalls c hc), ?_⟩
  rw [insertions, List.filterMap_append]
  exact (congrArg (insertions log ++ ·) hevs).trans (List.append_nil _) ▸ h.inserted

theorem Asked.step {ok : Thread → Int → Prop} (h : Asked ok w log) {i : WorkerInput α}
    (hi : i.Asks ok) : Asked ok (workerMachine.step w i).1 (log ++ (workerMachine.step w i).2) := by
  have hstep := step_cases w i
  generalize workerMachine.step w i = after at hstep ⊢
  cases hstep with
  | idle => exact h.still (fun _ hc => hc) rfl
  | tick d => exact h.still (fun _ hc => hc) rfl
  | called c _ _ heq =>
    rw [heq] at hi
    rw [List.append_nil]
    exact ⟨List.forall_mem_cons.mpr ⟨hi, h.calls⟩, h.inserted⟩
  | refused c _ _ _ => exact h.still (fun _ hc => List.mem_of_mem_filter hc) rfl
  | inserted c hcall _ =>
    refine ⟨fun d hd => h.calls d (List.mem_of_mem_filter hd), ?_⟩
    rw [insertions, List.filterMap_append]
    refine List.forall_mem_append.mpr ⟨h.inserted, List.forall_mem_singleton.mpr ?_⟩
    exact h.calls c (List.mem_of_find?_eq_some hcall)
  | started e es _ _ _ => exact h.still (fun _ hc => hc) rfl
  | finished e exception _ _ =>
    refine h.still (fun _ hc => hc) ?_
    cases exception <;> rfl

end Fifo

/-- **First in, first out**: what a thread inserts with the same delay is first what has been started,
    in the order of insertion, and then what still waits. -/
theorem worker_fifo (capacity : Nat) (now : Int) (is : List (WorkerInput α)) (t : Thread)
    (delay : Int) : ∃ done rest, insertedBy t delay (workerLog capacity now is) = done ++ rest ∧
      done.Sublist (starts (workerLog capacity now is)) ∧
      rest.Sublist (workerAfter capacity now is).tasks :=
  (kept_run capacity now is).fifo (timely_run capacity now is) t delay

/-! ## 4. The end -/

/-- Nothing is started behind the task that sets `m_stop`; only a task calls from the thread of the
    worker. -/
structure Halting (w : Worker α) (log : List (WorkerEvent α)) : Prop where
  last : ∀ e ∈ starts log, e.task.isStop = true →
    (w.phase = .running e ∨ w.phase = .stopped) ∧ ∃ pre, starts log = pre ++ [e]
  calls : (∃ e, w.phase = .running e) ∨ w.callOf .worker = none

section Halting

variable {w w' : Worker α} {log evs : List (WorkerEvent α)}

theorem starts_append_none (h : ∀ e ∈ evs, e.started? = none) : starts (log ++ evs) = starts log := by
  rw [starts, List.filterMap_append, List.filterMap_eq_nil_iff.mpr h, List.append_nil]
  rfl

theorem callOf_filter {t u : Thread} (h : w.callOf t = none) :
    { w with calls := w.calls.filter (·.thread ≠ u) }.callOf t = none := by
  refine List.find?_eq_none.mpr fun c hc => ?_
  exact List.find?_eq_none.mp h c (List.mem_of_mem_filter hc)

theorem callOf_filter_other {t u : Thread} {c : Call α} (hne : u ≠ t) (h : w.callOf t = some c) :
    { w with calls := w.calls.filter (·.thread ≠ u) }.callOf t = some c := by
  refine (List.find?_filter ..).trans ((List.find?_congr fun d _ => ?_).trans h)
  by_cases hd : d.thread = t
  · simp only [hd, hne.symm, ne_eq, not_false_eq_true, decide_true, and_self]
  · simp only [hd, decide_false, Bool.false_eq_true, and_false]

theorem Halting.new (capacity : Nat) (now : Int) : Halting (Worker.new α capacity now) [] :=
  ⟨fun _ h => absurd h List.not_mem_nil, Or.inr rfl⟩

theorem Halting.still (h : Halting w log) (hphase : w'.phase = w.phase)
    (hstarted : ∀ e ∈ evs, e.started? = none)
    (hcalls : w.callOf .worker = none → (∃ e, w.phase = .running e) ∨ w'.callOf .worker = none) :
    Halting w' (log ++ evs) := by
  refine ⟨?_, ?_⟩
  · rw [starts_append_none hstarted, hphase]
    exact h.last
  · rw [hphase]
    exact h.calls.elim Or.inl hcalls

theorem Halting.step (h : Halting w log) (i : WorkerInput α) :
    Halting (workerMachine.step w i).1 (log ++ (workerMachine.step w i).2) := by
  have hstep := step_cases w i
  generalize workerMachine.step w i = after at hstep ⊢
  cases hstep with
  | idle => exact h.still rfl (List.forall_mem_nil _) Or.inr
  | tick d => exact h.still rfl (List.forall_mem_nil _) Or.inr
  | called c hfree _ _ =>
    refine h.still rfl (List.forall_mem_nil _) fun hnone => ?_
    cases hthread : c.thread with
    | other n =>
      refine Or.inr (List.find?_eq_none.mpr fun d hd => ?_)
      rcases List.mem_cons.mp hd with rfl | hd
      · rw [hthread]
        exact of_decide_eq_false rfl
      · exact List.find?_eq_none.mp hnone d hd
    | worker =>
      rw [hthread] at hfree
      have hrunning := (Bool.and_eq_true _ _ ▸ hfree).2
      cases hphase : w.phase with
      | running e => exact Or.inl ⟨e, rfl⟩
      | waiting =>
        rw [hphase] at hrunning
        exact nomatch hrunning
      | stopped =>
        rw [hphase] at hrunning
        exact nomatch hrunning
  | refused c _ _ _ =>
    exact h.still rfl (List.forall_mem_singleton.mpr rfl) fun hnone => Or.inr (callOf_filter hnone)
  | inserted c _ _ =>
    exact h.still rfl (List.forall_mem_singleton.mpr rfl) fun hnone => Or.inr (callOf_filter hnone)
  | started e es hphase _ _ =>
    have hstarts : starts (log ++ [.started e w.now]) = starts log ++ [e] := by
      rw [starts, List.filterMap_append]
      rfl
    refine ⟨fun f hf hstop => ?_, Or.inl ⟨e, rfl⟩⟩
    rw [hstarts] at hf ⊢
    rcases List.mem_append.mp hf with hf | hf
    · rcases (h.last f hf hstop).1 with hrunning | hstopped
      · exact nomatch hphase.symm.trans hrunning
      · exact nomatch hphase.symm.trans hstopped
    · rw [List.mem_singleton.mp hf]
      exact ⟨Or.inl rfl, starts log, rfl⟩
  | finished e exception hphase hcall =>
    have hstarted : ∀ ev ∈ (exception.map WorkerEvent.caught).toList ++ [.finished e],
        WorkerEvent.started? (α := α) ev = none := by
      cases exception with
      | none => exact List.forall_mem_singleton.mpr rfl
      | some what => exact List.forall_mem_cons.mpr ⟨rfl, List.forall_mem_singleton.mpr rfl⟩
    refine ⟨fun f hf hstop => ?_, Or.inr hcall⟩
    rw [starts_append_none hstarted] at hf ⊢
    obtain ⟨hphase', hlast⟩ := h.last f hf hstop
    refine ⟨Or.inr ?_, hlast⟩
    rcases hphase' with hrunning | hstopped
    · have heq := hphase.symm.trans hrunning
      cases heq
      exact if_pos hstop
    · exact nomatch hphase.symm.trans hstopped

theorem halting_run (capacity : Nat) (now : Int) (is : List (WorkerInput α)) :
    Halting (workerAfter capacity now is) (workerLog capacity now is) :=
  Machine.log_invariant (fun _ _ i h => h.step i) (Halting.new capacity now) is

end Halting

/-- **The destructor**: in every run, nothing is started behind the task with which the destructor stops
    the worker, and all that was inserted before it and is due no later has been started by then. -/
theorem worker_stops (capacity : Nat) (now : Int) (is : List (WorkerInput α)) :
    ∀ e ∈ starts (workerLog capacity now is), e.task.isStop = true →
      ∃ pre, starts (workerLog capacity now is) = pre ++ [e] ∧
        ∀ c f, (c, f) ∈ insertions (workerLog capacity now is) → f.num < e.num →
          f.timeToFire ≤ e.timeToFire → f ∈ pre := by
  intro e he hstop
  obtain ⟨_, pre, hpre⟩ := (halting_run capacity now is).last e he hstop
  refine ⟨pre, hpre, fun c f hf hnum htime => ?_⟩
  have h : Kept (workerAfter capacity now is) (workerLog capacity now is) := kept_run capacity now is
  have hin := (h.in_order hf he hnum htime).subset List.mem_cons_self
  rw [hpre] at hin
  rcases List.mem_append.mp hin with hin | hin
  · exact hin
  · rw [List.mem_singleton.mp hin] at hnum
    exact absurd hnum (Nat.lt_irrefl _)

/-- A task, and the destructor behind it. -/
def lastTask : List (WorkerInput Char) :=
  [.schedule (.other 1) true 0 (.work 'a'), .lock (.other 1), .schedule (.other 2) true 0 .stop,
    .lock (.other 2), .take, .finish none, .take]

theorem worker_stops_last : ∃ pre, starts (workerLog 3 0 lastTask) = pre ++ [⟨0, 1, .stop⟩] ∧
    ∀ c f, (c, f) ∈ insertions (workerLog 3 0 lastTask) → f.num < 1 → f.timeToFire ≤ 0 → f ∈ pre :=
  worker_stops 3 0 lastTask ⟨0, 1, .stop⟩ (by decide) rfl

/-! ## 5. Progress -/

/-- The worker takes tasks, each of which ends somehow. -/
def rounds (ends : List (Option Str)) : List (WorkerInput α) :=
  ends.flatMap fun exception => [.take, .finish exception]

/-- One round. -/
theorem round {w : Worker α} {e : Entry α} {es : List (Entry α)} (hphase : w.phase = .waiting)
    (hcall : w.callOf .worker = none) (htasks : w.tasks = e :: es) (hdue : e.timeToFire ≤ w.now)
    (hstop : e.task.isStop = false) (exception : Option Str) :
    workerMachine.exec w [.take, .finish exception] = { w with tasks := es } ∧
      starts (workerMachine.outs w [.take, .finish exception]) = [e] := by
  have htake : workerMachine.step w .take =
      ({ w with tasks := es, phase := .running e }, [.started e w.now]) := by
    simp only [workerMachine, Worker.getNextTask, hphase, htasks, if_pos hdue]
  have hfinish : workerMachine.step { w with tasks := es, phase := .running e } (.finish exception) =
      ({ w with tasks := es },
        (exception.map WorkerEvent.caught).toList ++ [.finished e]) := by
    have hcall' : { w with tasks := es, phase := .running e }.callOf .worker = none := hcall
    cases exception with
    | none =>
      simp only [workerMachine, Worker.finish, hcall', hstop, Bool.false_eq_true, if_false]
      rw [← hphase]
      rfl
    | some what =>
      simp only [workerMachine, Worker.finish, hcall', hstop, Bool.false_eq_true, if_false]
      rw [← hphase]
      rfl
  refine ⟨?_, ?_⟩
  · rw [Machine.exec_cons, htake, Machine.exec_cons, hfinish]
    rfl
  · rw [Machine.outs_cons, htake, Machine.outs_cons, hfinish]
    cases exception with
    | none => rfl
    | some what => rfl

theorem drains {w : Worker α} (hphase : w.phase = .waiting) (hcall : w.callOf .worker = none)
    (hdue : ∀ e ∈ w.tasks, e.timeToFire ≤ w.now) (hstop : ∀ e ∈ w.tasks, e.task.isStop = false)
    {ends : List (Option Str)} (hends : ends.length = w.tasks.length) :
    (workerMachine.exec w (rounds ends)).tasks = [] ∧
      starts (workerMachine.outs w (rounds ends)) = w.tasks := by
  induction ends generalizing w with
  | nil =>
    have hnil : w.tasks = [] := List.eq_nil_of_length_eq_zero hends.symm
    exact ⟨hnil, hnil.symm⟩
  | cons exception ends ih =>
    cases htasks : w.tasks with
    | nil =>
      rw [htasks] at hends
      exact nomatch hends
    | cons e es =>
      rw [htasks] at hends hdue hstop
      obtain ⟨hexec, houts⟩ := round hphase hcall htasks (hdue e List.mem_cons_self)
        (hstop e List.mem_cons_self) exception
      have hsplit : rounds (exception :: ends) =
          [.take, .finish exception] ++ rounds (α := α) ends := rfl
      obtain ⟨htasks', hstarts⟩ := ih (w := { w with tasks := es }) hphase hcall
        (fun f hf => hdue f (List.mem_cons_of_mem e hf))
        (fun f hf => hstop f (List.mem_cons_of_mem e hf)) (Nat.succ.inj hends)
      rw [hsplit, Machine.exec_append, Machine.outs_append, hexec]
      refine ⟨htasks', ?_⟩
      rw [starts, List.filterMap_append]
      exact (congrArg₂ (· ++ ·) houts hstarts)

/-- **No task is left behind**: after every run, a worker that waits and is not to be stopped has, when
    the times of all its tasks have come, executed all of them as soon as each of them has ended,
    whatever they throw. -/
theorem worker_drains (capacity : Nat) (now : Int) (is : List (WorkerInput α))
    (hphase : (workerAfter capacity now is).phase = .waiting)
    (hstop : ∀ e ∈ (workerAfter capacity now is).tasks, e.task.isStop = false) (d : Nat)
    (hdue : ∀ e ∈ (workerAfter capacity now is).tasks,
      e.timeToFire ≤ (workerAfter capacity now is).now + d)
    (ends : List (Option Str)) (hends : ends.length = (workerAfter capacity now is).tasks.length) :
    (workerAfter capacity now (is ++ .tick d :: rounds ends)).tasks = [] ∧
    starts (workerLog capacity now (is ++ .tick d :: rounds ends)) =
      starts (workerLog capacity now is) ++ (workerAfter capacity now is).tasks := by
  obtain ⟨w, hw⟩ : ∃ w, workerAfter capacity now is = w := ⟨_, rfl⟩
  have hcall : w.callOf .worker = none := by
    rcases hw ▸ (halting_run capacity now is).calls with ⟨e, hrunning⟩ | hnone
    · rw [hw] at hphase
      exact nomatch hphase.symm.trans hrunning
    · exact hnone
  rw [hw] at hphase hstop hdue hends ⊢
  have hafter : workerMachine.step w (.tick d) = ({ w with now := w.now + d }, []) := rfl
  obtain ⟨htasks, hstarts⟩ :=
    drains (w := { w with now := w.now + d }) hphase hcall hdue hstop hends
  refine ⟨?_, ?_⟩
  · rw [workerAfter, Machine.exec_append, Machine.exec_cons]
    exact (congrArg (fun v : Worker α =>
      (workerMachine.exec (workerMachine.step v (.tick d)).1 (rounds ends)).tasks) hw).trans htasks
  · rw [workerLog, Machine.outs_append, Machine.outs_cons, starts, List.filterMap_append]
    refine congrArg₂ (· ++ ·) rfl ?_
    exact (congrArg (fun v : Worker α => starts ((workerMachine.step v (.tick d)).2 ++
      workerMachine.outs (workerMachine.step v (.tick d)).1 (rounds ends))) hw).trans hstarts

/-- A task that throws, one that is due later and was scheduled earlier, and the clock between. -/
theorem worker_drains_two : starts (workerLog 3 0
    ([.schedule (.other 1) true 50 (.work 'b'), .lock (.other 1), .schedule (.other 2) false 0
      (.work 'a'), .lock (.other 2)] ++ .tick 50 :: rounds [some "what".toList, none])) =
    [⟨0, 1, .work 'a'⟩, ⟨50, 0, .work 'b'⟩] :=
  (worker_drains 3 0
    [.schedule (.other 1) true 50 (.work 'b'), .lock (.other 1), .schedule (.other 2) false 0
      (.work 'a'), .lock (.other 2)] rfl (by decide) 50 (by decide) [some "what".toList, none] rfl).2

/-! ## 6. Deadlock -/

/-- A task waits for room on its own worker, which is full. -/
structure Stuck (w : Worker α) (c : Call α) : Prop where
  call : w.callOf .worker = some c
  blocking : c.blocking = true
  running : ∃ e, w.phase = .running e
  full : w.capacity ≤ w.tasks.length

theorem Stuck.step {w : Worker α} {c : Call α} (h : Stuck w c) (i : WorkerInput α) :
    Stuck (workerMachine.step w i).1 c ∧ starts (workerMachine.step w i).2 = [] ∧
      insertions (workerMachine.step w i).2 = [] := by
  obtain ⟨e, hrunning⟩ := h.running
  have hstep := step_cases w i
  generalize workerMachine.step w i = after at hstep ⊢
  cases hstep with
  | idle => exact ⟨h, rfl, rfl⟩
  | tick d => exact ⟨⟨h.call, h.blocking, h.running, h.full⟩, rfl, rfl⟩
  | called d hfree _ _ =>
    have hother : d.thread ≠ .worker := by
      intro hthread
      have hnone : (w.callOf d.thread).isNone = true := (Bool.and_eq_true _ _ ▸ hfree).1
      rw [hthread, h.call] at hnone
      exact absurd hnone Bool.false_ne_true
    refine ⟨⟨?_, h.blocking, h.running, h.full⟩, rfl, rfl⟩
    have hfirst : decide (d.thread = .worker) = false := decide_eq_false hother
    show (d :: w.calls).find? (·.thread = Thread.worker) = some c
    rw [List.find?_cons, hfirst]
    exact h.call
  | refused d hcall _ hrefused =>
    have hother : d.thread ≠ .worker := by
      intro hthread
      rw [hthread, h.call] at hcall
      cases hcall
      exact absurd (h.blocking.symm.trans hrefused) Bool.true_eq_false.mp
    exact ⟨⟨callOf_filter_other hother h.call, h.blocking, h.running, h.full⟩, rfl, rfl⟩
  | inserted d _ hroom => exact absurd hroom (Nat.not_lt.mpr h.full)
  | started f es hphase _ _ => exact nomatch hrunning.symm.trans hphase
  | finished f exception _ hcall => exact nomatch h.call.symm.trans hcall

theorem Stuck.run {w : Worker α} {c : Call α} (h : Stuck w c) (is : List (WorkerInput α)) :
    Stuck (workerMachine.exec w is) c ∧ starts (workerMachine.outs w is) = [] ∧
      insertions (workerMachine.outs w is) = [] := by
  induction is generalizing w with
  | nil => exact ⟨h, rfl, rfl⟩
  | cons i is ih =>
    obtain ⟨hstuck, hstarts, hinsertions⟩ := h.step i
    obtain ⟨hstuck', hstarts', hinsertions'⟩ := ih hstuck
    refine ⟨hstuck', ?_, ?_⟩
    · rw [Machine.outs_cons, starts, List.filterMap_append]
      exact congrArg₂ (· ++ ·) hstarts hstarts'
    · rw [Machine.outs_cons, insertions, List.filterMap_append]
      exact congrArg₂ (· ++ ·) hinsertions hinsertions'

/-- **A worker that waits for itself**: a task that calls `Schedule` on its own worker when there is no
    room waits for ever, and nothing is started or inserted any more. -/
theorem worker_blocks_itself (capacity : Nat) (now : Int) (is : List (WorkerInput α)) (c : Call α)
    (hcall : (workerAfter capacity now is).callOf .worker = some c) (hblocking : c.blocking = true)
    (hfull : capacity ≤ (workerAfter capacity now is).tasks.length) (js : List (WorkerInput α)) :
    (workerAfter capacity now (is ++ js)).callOf .worker = some c ∧
    starts (workerLog capacity now (is ++ js)) = starts (workerLog capacity now is) ∧
    insertions (workerLog capacity now (is ++ js)) = insertions (workerLog capacity now is) := by
  have hrunning : ∃ e, (workerAfter capacity now is).phase = .running e :=
    (halting_run capacity now is).calls.resolve_right fun hnone =>
      absurd (hcall.symm.trans hnone) (Option.some_ne_none c)
  have hstuck : Stuck (workerAfter capacity now is) c :=
    ⟨hcall, hblocking, hrunning, (capacity_run capacity now is).le.trans hfull⟩
  obtain ⟨hafter, hstarts, hinsertions⟩ := hstuck.run js
  refine ⟨?_, ?_, ?_⟩
  · rw [workerAfter, Machine.exec_append]
    exact hafter.call
  · rw [workerLog, Machine.outs_append, starts, List.filterMap_append]
    exact (congrArg (_ ++ ·) hstarts).trans (List.append_nil _)
  · rw [workerLog, Machine.outs_append, insertions, List.filterMap_append]
    exact (congrArg (_ ++ ·) hinsertions).trans (List.append_nil _)

/-- A worker with room for one task, which is taken while the first task schedules a third. -/
theorem worker_blocks_itself_one : starts (workerLog 1 0
    ([.schedule (.other 1) true 0 (.work 'a'), .lock (.other 1), .take, .schedule (.other 1) true 0
      (.work 'b'), .lock (.other 1), .schedule .worker true 0 (.work 'c')] ++
      [.lock .worker, .tick 1000, .take, .finish none, .lock .worker])) = [⟨0, 0, .work 'a'⟩] :=
  (worker_blocks_itself 1 0
    [.schedule (.other 1) true 0 (.work 'a'), .lock (.other 1), .take, .schedule (.other 1) true 0
      (.work 'b'), .lock (.other 1), .schedule .worker true 0 (.work 'c')]
    ⟨.worker, true, 0, 0, .work 'c'⟩ (by decide) rfl (by decide)
    [.lock .worker, .tick 1000, .take, .finish none, .lock .worker]).2.1

end Veridie.Dispatch
