/-
  File:      Veridie/Dispatch/Worker.lean
  Subject:   `async::Worker` (dispatch/common/worker.cpp): a thread that executes tasks when their time
             has come, and the threads that schedule them.

  A step is a section under the mutex, or the part of a function before or behind it; the steps of
  the threads interleave in any order. A condition variable adds nothing to that: a wait ends when
  its predicate holds, which is when the section behind it can be entered. The steady clock only
  ever moves forward.

  * `Worker` -- the members, the calls in progress, and where the thread of the worker is;
  * `Worker.lock` -- the section of `Schedule` and `TrySchedule`;
  * `Worker.getNextTask`, `Worker.finish` -- `Run`;
  * `workerMachine` -- everything that can happen.
-/
import Veridie.Base
import Veridie.Lib.Machine
import Veridie.Lib.StableQueue

namespace Veridie.Dispatch

open Veridie.Lib

/-! ## 1. State -/

/-- A task: what a caller has given, or what `~Worker` schedules, which sets `m_stop`. -/
inductive Task (α : Type) where
  | work (a : α)
  | stop
  deriving DecidableEq, Repr

def Task.isStop {α : Type} : Task α → Bool
  | .work _ => false
  | .stop => true

/-- The thread of the worker, on which a task can schedule further ones, or another one. -/
inductive Thread where
  | worker
  | other (n : Nat)
  deriving DecidableEq, Repr

/-- A call of `Schedule` or `TrySchedule` that has read the clock and not entered the section yet. -/
structure Call (α : Type) where
  thread : Thread
  blocking : Bool
  delay : Int
  timeToFire : Int
  task : Task α
  deriving DecidableEq, Repr

/-- An element of `m_tasks`; the elements are numbered in the order of insertion. -/
structure Entry (α : Type) where
  timeToFire : Int
  num : Nat
  task : Task α
  deriving DecidableEq, Repr

/-- Where the thread of the worker is: in `GetNextTask`, in a task, behind its loop. -/
inductive Phase (α : Type) where
  | waiting
  | running (e : Entry α)
  | stopped
  deriving DecidableEq, Repr

structure Worker (α : Type) where
  capacity : Nat
  now : Int
  tasks : List (Entry α)
  next : Nat
  calls : List (Call α)
  phase : Phase α

/-- What can be seen: a task is inserted, `TrySchedule` answers false, a task starts and ends, and the
    handler is called with the text of an exception. -/
inductive WorkerEvent (α : Type) where
  | inserted (c : Call α) (e : Entry α)
  | refused (c : Call α)
  | started (e : Entry α) (now : Int)
  | finished (e : Entry α)
  | caught (what : Str)

section Model

variable {α : Type}

/-- A worker that has just been constructed. -/
def Worker.new (α : Type) (capacity : Nat) (now : Int) : Worker α :=
  ⟨capacity, now, [], 0, [], .waiting⟩

/-! ## 2. `Schedule` and `TrySchedule` -/

/-- The call that a thread has in progress. -/
def Worker.callOf (w : Worker α) (t : Thread) : Option (Call α) := w.calls.find? (·.thread = t)

/-- The thread can call something: it is not in a call, and the worker is in a task. -/
def Worker.free (w : Worker α) (t : Thread) : Bool :=
  (w.callOf t).isNone &&
    match t, w.phase with
    | .other _, _ => true
    | .worker, .running _ => true
    | .worker, _ => false

/-- The part before the section. -/
def Worker.schedule (w : Worker α) (t : Thread) (blocking : Bool) (delay : Int) (task : Task α) :
    Worker α × List (WorkerEvent α) :=
  if w.free t then
    ({ w with calls := ⟨t, blocking, delay, w.now + delay, task⟩ :: w.calls }, [])
  else (w, [])

/-- The section: a blocking call waits as long as there is no room. -/
def Worker.lock (w : Worker α) (t : Thread) : Worker α × List (WorkerEvent α) :=
  match w.callOf t with
  | none => (w, [])
  | some c =>
    let calls := w.calls.filter (·.thread ≠ t)
    if w.tasks.length < w.capacity then
      let e : Entry α := ⟨c.timeToFire, w.next, c.task⟩
      ({ w with
          tasks := insertBehind Entry.timeToFire e w.tasks, next := w.next + 1, calls := calls },
        [.inserted c e])
    else if c.blocking then (w, [])
    else ({ w with calls := calls }, [.refused c])

/-! ## 3. `Run` -/

/-- `GetNextTask`, when the time of the first task has come. -/
def Worker.getNextTask (w : Worker α) : Worker α × List (WorkerEvent α) :=
  match w.phase, w.tasks with
  | .waiting, e :: es =>
    if e.timeToFire ≤ w.now then
      ({ w with tasks := es, phase := .running e }, [.started e w.now])
    else (w, [])
  | _, _ => (w, [])

/-- The task returns or throws, and the loop goes on or ends. -/
def Worker.finish (w : Worker α) (exception : Option Str) : Worker α × List (WorkerEvent α) :=
  match w.phase, w.callOf .worker with
  | .running e, none =>
    let phase := if e.task.isStop then .stopped else .waiting
    match exception with
    | none => ({ w with phase := phase }, [.finished e])
    | some what => ({ w with phase := phase }, [.caught what, .finished e])
  | _, _ => (w, [])

/-- What happens: the clock moves on, a thread calls `Schedule` or `TrySchedule`, enters the section,
    the worker takes the next task, the task ends. -/
inductive WorkerInput (α : Type) where
  | tick (d : Nat)
  | schedule (t : Thread) (blocking : Bool) (delay : Int) (task : Task α)
  | lock (t : Thread)
  | take
  | finish (exception : Option Str)

def workerMachine : Machine (Worker α) (WorkerInput α) (WorkerEvent α) where
  step w i :=
    match i with
    | .tick d => ({ w with now := w.now + d }, [])
    | .schedule t blocking delay task => w.schedule t blocking delay task
    | .lock t => w.lock t
    | .take => w.getNextTask
    | .finish exception => w.finish exception

end Model

end Veridie.Dispatch
