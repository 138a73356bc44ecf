/-
  File:      Veridie/Utils/Tasks.lean
  Subject:   `cr::TaskHandle` coroutines that `co_await` each other (utils/task.hpp), with the
             `InlineExecutor`: the frames, who resumes and who destroys them.

  A body is given by what it does from each of its points; a point stands for the place in the code
  and the values of the locals. One step of the machine is one action of the code that is on top of
  the stack of `resume` calls, or one of the outside world.

  * `Op`, `Frame`, `Tasks` -- bodies, coroutine frames, all of them and the calls in progress;
  * `isCanceled`, `awaitResume` -- `CancelingAwaiter`;
  * `destroyHandle`, `Tasks.finish` -- `~TaskHandle`, and the end of a body with its `final_suspend`;
  * `Tasks.advance` -- an action of the code;
  * `taskMachine` -- the tasks over all that can happen to them.
-/
import Veridie.Base
import Veridie.Lib.Machine

namespace Veridie.Utils

open Veridie.Lib

/-! ## 1. Bodies and frames -/

/-- What is thrown: `CanceledException`, or anything else. -/
inductive Thrown (X : Type) where
  | canceled
  | other (x : X)
  deriving DecidableEq, Repr

/-- What an await or a body ends with. -/
abbrev Result (V X : Type) := Except (Thrown X) V

/-- What a body does next. It goes on behind an await from where it deals with the value or with the
    exception; `endScope` is the end of the scope or of the full-expression of the youngest handle,
    and `call` awaits the handle of a coroutine that it has just called. -/
inductive Op (L V X O : Type) where
  | exec (o : O) (next : L)
  | awaitReady (r : Result V X) (next : Result V X → L)
  | await (next : Result V X → L)
  | call (child : L) (next : Result V X → L)
  | endScope (next : L)
  | ret (v : V)
  | throw (e : Thrown X)

/-- Where a coroutine is: not started, in its body, suspended at an awaiter, in `Run` of a child,
    suspended until a child is done, resumed by the child, suspended at the end. -/
inductive Point (L V X : Type) where
  | initial (l : L)
  | running (l : L)
  | awaiting (next : Result V X → L)
  | starting (c : Nat) (next : Result V X → L)
  | joined (c : Nat) (next : Result V X → L)
  | resumed (c : Nat) (next : Result V X → L)
  | final

/-- A frame: the promise, the handles that the body holds, and where it is. A pointer to a flag is
    the frame that the flag is in. -/
structure Frame (L V X : Type) where
  canceled : Bool
  parentCanceled : Option Nat
  parentHandle : Option Nat
  value : Option (Result V X)
  handles : List Nat
  point : Point L V X

/-- The frames that exist, the first number that none has had, and the coroutines whose `resume` is in
    progress, from the innermost; `handle` tells whether the handle of the root, frame 0, exists. -/
structure Tasks (L V X : Type) where
  frames : Nat → Option (Frame L V X)
  next : Nat
  stack : List Nat
  handle : Bool

/-- What can be seen. `undefined` is an access to a frame that does not exist, or the resumption of a
    coroutine that is not suspended. -/
inductive Event (V X O : Type) where
  | exec (f : Nat) (o : O)
  | called (p c : Nat)
  | finished (f : Nat) (r : Result V X)
  | resumed (p c : Nat) (r : Result V X)
  | destroyed (f : Nat)
  | undefined

section Model

variable {L V X O : Type}

/-- A frame of a coroutine that has just been called. -/
def Frame.new (l : L) (parentCanceled : Option Nat) : Frame L V X :=
  ⟨false, parentCanceled, none, none, [], .initial l⟩

def Frame.at (fr : Frame L V X) (point : Point L V X) : Frame L V X := { fr with point := point }

/-- `done`. -/
def Frame.done (fr : Frame L V X) : Bool :=
  match fr.point with
  | .final => true
  | _ => false

def Tasks.set (t : Tasks L V X) (f : Nat) (fr : Frame L V X) : Tasks L V X :=
  { t with frames := Function.update t.frames f (some fr) }

/-- An access that is undefined. -/
def Tasks.stuck (t : Tasks L V X) : Tasks L V X × List (Event V X O) := (t, [.undefined])

/-! ## 2. The code -/

/-- `p.canceled || (p.parentCanceled && *p.parentCanceled)`. -/
def isCanceled (frames : Nat → Option (Frame L V X)) (fr : Frame L V X) : Option Bool :=
  if fr.canceled then some true
  else
    match fr.parentCanceled with
    | none => some false
    | some q => (frames q).map Frame.canceled

/-- `CancelingAwaiter::await_resume`, around that of the awaiter itself. -/
def awaitResume (frames : Nat → Option (Frame L V X)) (fr : Frame L V X)
    (r : Option (Result V X)) : Option (Result V X) :=
  match isCanceled frames fr with
  | none => none
  | some true => some (.error .canceled)
  | some false => r

/-- `~TaskHandle`. -/
def destroyHandle (frames : Nat → Option (Frame L V X)) (c : Nat) :
    (Nat → Option (Frame L V X)) × List (Event V X O) :=
  match frames c with
  | none => (frames, [.undefined])
  | some fr =>
    if fr.done then (Function.update frames c none, [.destroyed c])
    else (Function.update frames c (some { fr with canceled := true }), [])

/-- The handles that a body still holds, when it is left. -/
def destroyHandles (frames : Nat → Option (Frame L V X)) :
    List Nat → (Nat → Option (Frame L V X)) × List (Event V X O)
  | [] => (frames, [])
  | c :: cs =>
    let (frames, evs) := destroyHandle frames c
    let (frames, evs') := destroyHandles frames cs
    (frames, evs ++ evs')

/-- `resume` of a coroutine that waits for a child. -/
def resumeParent (frames : Nat → Option (Frame L V X)) (p : Nat) :
    Option (Nat → Option (Frame L V X)) :=
  match frames p with
  | none => none
  | some fr =>
    match fr.point with
    | .joined c next => some (Function.update frames p (some (fr.at (.resumed c next))))
    | _ => none

/-- The body is left, its result is stored by `return_value` or `unhandled_exception`, and then comes
    `final_suspend`: a coroutine whose handle is gone is not suspended and so destroyed, any other
    one resumes its parent from `await_suspend`. -/
def Tasks.finish (t : Tasks L V X) (f : Nat) (fr : Frame L V X) (rest : List Nat)
    (r : Result V X) : Tasks L V X × List (Event V X O) :=
  let (frames, evs) := destroyHandles t.frames fr.handles
  if fr.canceled then
    ({ t with frames := Function.update frames f none, stack := rest },
      evs ++ [.finished f r, .destroyed f])
  else
    let fr := { fr with value := some r, handles := [], point := .final }
    let frames := Function.update frames f (some fr)
    match fr.parentHandle with
    | none => ({ t with frames := frames, stack := rest }, evs ++ [.finished f r])
    | some p =>
      match resumeParent frames p with
      | none => ({ t with frames := frames, stack := rest }, evs ++ [.finished f r, .undefined])
      | some frames =>
        ({ t with frames := frames, stack := p :: f :: rest }, evs ++ [.finished f r])

/-- The parent goes on behind its await, with what the child has ended with. -/
def Tasks.collect (t : Tasks L V X) (f : Nat) (fr : Frame L V X) (c : Nat)
    (next : Result V X → L) : Tasks L V X × List (Event V X O) :=
  match awaitResume t.frames fr ((t.frames c).bind Frame.value) with
  | none => t.stuck
  | some r => (t.set f (fr.at (.running (next r))), [.resumed f c r])

/-- An action of a body. -/
def Tasks.perform (t : Tasks L V X) (f : Nat) (fr : Frame L V X) (rest : List Nat) :
    Op L V X O → Tasks L V X × List (Event V X O)
  | .exec o next => (t.set f (fr.at (.running next)), [.exec f o])
  | .awaitReady r next =>
    match awaitResume t.frames fr (some r) with
    | none => t.stuck
    | some r => (t.set f (fr.at (.running (next r))), [])
  | .await next => ({ t.set f (fr.at (.awaiting next)) with stack := rest }, [])
  | .call child next =>
    let c := t.next
    let parent := { fr with handles := c :: fr.handles, point := .starting c next }
    -- `await_transform` passes the flag of the root on, or its own
    let inner := Frame.new child (some (fr.parentCanceled.getD f))
    ({ (t.set f parent).set c inner with next := c + 1, stack := c :: f :: rest }, [.called f c])
  | .endScope next =>
    match fr.handles with
    | [] => (t.set f (fr.at (.running next)), [])
    | c :: handles =>
      let (frames, evs) := destroyHandle t.frames c
      (Tasks.set { t with frames := frames } f
        { fr with handles := handles, point := .running next }, evs)
  | .ret v => t.finish f fr rest (.ok v)
  | .throw e => t.finish f fr rest (.error e)

/-- An action of the coroutine on top of the stack; one that is suspended or destroyed returns. -/
def Tasks.advance (code : L → Op L V X O) (t : Tasks L V X) : Tasks L V X × List (Event V X O) :=
  match t.stack with
  | [] => (t, [])
  | f :: rest =>
    match t.frames f with
    | none => ({ t with stack := rest }, [])
    | some fr =>
      match fr.point with
      | .initial l =>
        match isCanceled t.frames fr with
        | none => t.stuck
        | some true => t.finish f fr rest (.error .canceled)
        | some false => (t.set f (fr.at (.running l)), [])
      | .running l => t.perform f fr rest (code l)
      | .starting c next =>
        match t.frames c with
        | none => t.stuck
        | some inner =>
          if inner.done then t.collect f fr c next
          else
            ({ (t.set c { inner with parentHandle := some f }).set f (fr.at (.joined c next)) with
                stack := rest }, [])
      | .resumed c next => t.collect f fr c next
      | .awaiting _ | .joined _ _ | .final => ({ t with stack := rest }, [])

/-- What an awaiter resumes. -/
def Tasks.resume (t : Tasks L V X) (f : Nat) (r : Result V X) : Tasks L V X × List (Event V X O) :=
  match t.frames f with
  | none => (t, [])
  | some fr =>
    match fr.point with
    | .awaiting next =>
      match awaitResume t.frames fr (some r) with
      | none => t.stuck
      | some r => ({ t.set f (fr.at (.running (next r))) with stack := f :: t.stack }, [])
    | _ => (t, [])

/-- In progress, and not at its end. -/
def Tasks.live (t : Tasks L V X) (f : Nat) : Bool :=
  match t.frames f with
  | none => false
  | some fr => !fr.done

/-- No body is being executed. -/
def Tasks.idle (t : Tasks L V X) : Bool := t.stack.all fun f => !t.live f

/-! ## 3. The machine -/

/-- What happens: the code goes on, the awaiter of a coroutine resumes it, the handle of the root is
    destroyed. -/
inductive TaskInput (V X : Type) where
  | advance
  | resume (f : Nat) (r : Result V X)
  | destroy

/-- The tasks, whose root's handle may be destroyed whenever no body is being executed. -/
def taskMachine (code : L → Op L V X O) : Machine (Tasks L V X) (TaskInput V X) (Event V X O) where
  step t i :=
    match i with
    | .advance => t.advance code
    | .resume f r => t.resume f r
    | .destroy =>
      if t.handle && t.idle then
        let (frames, evs) := destroyHandle t.frames 0
        ({ t with frames := frames, handle := false }, evs)
      else (t, [])

/-- A root task that has just been `Run`. -/
def Tasks.start (l : L) : Tasks L V X :=
  ⟨fun f => if f = 0 then some (Frame.new l none) else none, 1, [0], true⟩

end Model

end Veridie.Utils
