/-
  File:      Veridie/Utils/Owner.lean
  Subject:   `cr::TaskOwner` (utils/taskowner.hpp), the base of every state and of
             `RemotePeerManager`: root tasks that are started and then held until they are done, or
             until the owner goes.

  Each root task has the frames of the tasks nested in it, those of Tasks.lean, which tells what its
  coroutines do. Which of the root tasks goes on next is left open.

  * `Root`, `Owner` -- a root task, and an owner with all the root tasks it was ever given;
  * `Root.ensureNoException`, `rethrowExceptions`, `releaseAll`, `Owner.startRootTask` -- the code;
  * `nestingAt` -- a body that has come to a `co_await StartNestedTask`;
  * `owning` -- the owner over everything that can happen to it.
-/
import Veridie.Utils.Canceling

namespace Veridie.Utils

open Veridie.Lib

/-! ## 1. Data -/

/-- A root task and the tasks nested in it. `taken` tells whether `EnsureNoException` has put
    `std::monostate` in the place of its exception. -/
structure Root (L V X : Type) where
  tasks : Tasks L V X
  taken : Bool

/-- A `TaskOwner`: the root tasks by their numbers, the first number that none has had, `m_tasks`, the
    coroutines that are in `await_suspend` of a `SuspenderStarter`, and whether the owner exists. -/
structure Owner (L V X : Type) where
  roots : Nat → Option (Root L V X)
  next : Nat
  tasks : List Nat
  nesting : List (Nat × Nat)
  alive : Bool

/-- What can be seen: something of a root task, a root task started, one whose handle is destroyed
    before it was started, the exception of one thrown. `undefined` is an owner that does not exist. -/
inductive OwnerEvent (V X O : Type) where
  | task (k : Nat) (e : Event V X O)
  | started (k : Nat)
  | dropped (k : Nat)
  | threw (k : Nat) (e : Thrown X)
  | undefined

/-- What happens: `StartRootTask` and `RethrowExceptions` are called, a root task goes on, the awaiter
    of one of its coroutines resumes it, `await_suspend` of a `SuspenderStarter` returns, the owner is
    destroyed. -/
inductive OwnerInput (L V X : Type) where
  | start (l : L)
  | rethrow
  | advance (k : Nat)
  | resume (k f : Nat) (r : Result V X)
  | nested (k f : Nat)
  | destroy

section Model

variable {L V X O : Type}

/-! ## 2. The code -/

/-- `EnsureNoException`. -/
def Root.ensureNoException (r : Root L V X) : Root L V X × Option (Thrown X) :=
  match r.tasks.frames 0 with
  | none => (r, none)
  | some fr =>
    if !fr.done || r.taken then (r, none)
    else
      match fr.value with
      | some (.error e) => ({ r with taken := true }, some e)
      | _ => (r, none)

/-- `RethrowExceptions`, with the task whose exception it throws. -/
def rethrowExceptions (roots : Nat → Option (Root L V X)) :
    List Nat → (Nat → Option (Root L V X)) × Option (Nat × Thrown X)
  | [] => (roots, none)
  | k :: tasks =>
    match roots k with
    | none => rethrowExceptions roots tasks
    | some r =>
      match r.ensureNoException with
      | (r, some e) => (Function.update roots k (some r), some (k, e))
      | (_, none) => rethrowExceptions roots tasks

/-- `TaskHandle::operator bool`. -/
def holds (roots : Nat → Option (Root L V X)) (k : Nat) : Bool :=
  match roots k with
  | none => false
  | some r => r.tasks.live 0

/-- `~TaskHandle`. -/
def Root.release (r : Root L V X) : Root L V X × List (Event V X O) :=
  let (frames, evs) := destroyHandle r.tasks.frames 0
  ({ r with tasks := { r.tasks with frames := frames, handle := false } }, evs)

/-- The handles of some root tasks are destroyed, by `erase_if` or with the vector. -/
def releaseAll (roots : Nat → Option (Root L V X)) :
    List Nat → (Nat → Option (Root L V X)) × List (OwnerEvent V X O)
  | [] => (roots, [])
  | k :: tasks =>
    match roots k with
    | none => releaseAll roots tasks
    | some r =>
      let (r, evs) := r.release
      let (roots, evs') := releaseAll (Function.update roots k (some r)) tasks
      (roots, evs.map (.task k) ++ evs')

/-- A coroutine that has just been called, and not been `Run`. -/
def Root.called (l : L) : Root L V X := ⟨{ Tasks.start l with stack := [] }, false⟩

/-- `StartRootTask`, with a coroutine that has been called for it. When it throws, the handle goes
    with the temporary it was passed in: the frame of a coroutine that is not done is not destroyed by
    that, and nobody resumes this one. -/
def Owner.startRootTask (o : Owner L V X) (l : L) :
    Owner L V X × List (OwnerEvent V X O) × Option (Thrown X) :=
  let k := o.next
  match rethrowExceptions o.roots o.tasks with
  | (roots, some (j, e)) =>
    let (r, _) := Root.release (O := O) (Root.called l)
    ({ o with roots := Function.update roots k (some r), next := k + 1 },
      [.threw j e, .dropped k], some e)
  | (_, none) =>
    let (roots, evs) := releaseAll o.roots (o.tasks.filter fun j => !holds o.roots j)
    ({ o with
        roots := Function.update roots k (some ⟨Tasks.start l, false⟩)
        next := k + 1
        tasks := o.tasks.filter (holds o.roots) ++ [k] },
      evs ++ [.started k], none)

/-- The root task's coroutines have got somewhere. -/
def Owner.setTasks (o : Owner L V X) (k : Nat) (r : Root L V X) (t : Tasks L V X) : Owner L V X :=
  { o with roots := Function.update o.roots k (some { r with tasks := t }) }

/-- The coroutine on top of the stack has come to a `co_await StartNestedTask(...)`: its number, and
    the coroutine it has called for that. -/
def nestingAt (code : L → Op L V X O) (nested : L → Option L) (t : Tasks L V X) : Option (Nat × L) :=
  match t.stack with
  | [] => none
  | f :: _ =>
    match t.frames f with
    | none => none
    | some fr =>
      match fr.point with
      | .running l =>
        match code l with
        | .await _ => (nested l).map fun child => (f, child)
        | _ => none
      | _ => none

/-- An awaiter of a root task resumes a coroutine. -/
def Owner.resume (o : Owner L V X) (k f : Nat) (r : Result V X) :
    Owner L V X × List (OwnerEvent V X O) :=
  match o.roots k with
  | none => (o, [])
  | some root =>
    let (t, evs) := root.tasks.resume f r
    (o.setTasks k root t, evs.map (.task k))

/-- A root task goes on. A coroutine is suspended while its `SuspenderStarter` starts the nested task;
    it goes on with the exception when that throws one. -/
def Owner.advance (code : L → Op L V X O) (nested : L → Option L) (o : Owner L V X) (k : Nat) :
    Owner L V X × List (OwnerEvent V X O) :=
  match o.roots k with
  | none => (o, [])
  | some root =>
    let (t, evs) := root.tasks.advance code
    let o := o.setTasks k root t
    match nestingAt code nested root.tasks with
    | none => (o, evs.map (.task k))
    | some (f, child) =>
      if o.alive then
        match o.startRootTask child with
        | (o, evs', some e) =>
          let (o, evs'') := o.resume k f (.error e)
          (o, evs.map (.task k) ++ (evs' ++ evs''))
        | (o, evs', none) => ({ o with nesting := (k, f) :: o.nesting }, evs.map (.task k) ++ evs')
      else (o, evs.map (.task k) ++ [.undefined])

/-- No body is being executed. -/
def Owner.idle (o : Owner L V X) : Bool :=
  o.nesting.isEmpty && o.tasks.all fun k =>
    match o.roots k with
    | none => true
    | some r => r.tasks.idle

/-! ## 3. The machine -/

/-- The owner over everything that can happen to it: it is destroyed while no body is being executed,
    as by `SwitchToState`, which waits for the timer first. `void` is what `await_resume` of a
    `SuspenderStarter` returns. -/
def owning (code : L → Op L V X O) (nested : L → Option L) (void : V) :
    Machine (Owner L V X) (OwnerInput L V X) (OwnerEvent V X O) where
  step o i :=
    match i with
    | .start l =>
      if o.alive then
        let (o, evs, _) := o.startRootTask l
        (o, evs)
      else (o, [])
    | .rethrow =>
      match rethrowExceptions o.roots o.tasks with
      | (roots, some (k, e)) => ({ o with roots := roots }, [.threw k e])
      | (_, none) => (o, [])
    | .advance k => o.advance code nested k
    | .resume k f r => if (k, f) ∈ o.nesting then (o, []) else o.resume k f r
    | .nested k f =>
      if (k, f) ∈ o.nesting then
        { o with nesting := o.nesting.erase (k, f) }.resume k f (.ok void)
      else (o, [])
    | .destroy =>
      if o.alive && o.idle then
        let (roots, evs) := releaseAll o.roots o.tasks
        ({ o with roots := roots, tasks := [], alive := false }, evs)
      else (o, [])

/-- A new owner. -/
def Owner.new : Owner L V X := ⟨fun _ => none, 0, [], [], true⟩

end Model

end Veridie.Utils
