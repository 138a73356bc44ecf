/-
  File:      Veridie/Utils/AnyOf.lean
  Subject:   `cr::AnyOf` (utils/taskutils.hpp): the first result of several competing tasks.

  The coroutines are those of the caller, of `AnyOf`, and for each competing task its own and that
  of the `TaskWrapper` around it. With the `InlineExecutor` a resumption is a call, so that each
  function here runs a coroutine from where it is resumed to where control comes back, as in the
  source: task, wrapper, `AnyOf`, caller.

  * `Body` -- a competing task: it completes with a value, after any number of suspensions;
  * `Lane`, `AnyOfState` -- the frames;
  * `resumeTask`, `resumeWrapper`, `resumeAnyOf`, `resumeCaller` -- who resumes whom;
  * `anyOf` -- the call, up to where the caller is suspended or goes on;
  * `anyOfMachine` -- what can happen afterwards.
-/
import Veridie.Base
import Veridie.Lib.Machine

namespace Veridie.Utils

open Veridie.Lib

/-! ## 1. Frames -/

/-- What a competing task does, up to its `co_return`. Each await goes on with what it is resumed
    with. -/
inductive Body (R V O : Type) where
  | exec (o : O) (rest : Body R V O)
  | await (next : R → Body R V O)
  | ret (v : V)

/-- Where a competing task is. At its end it has a value, or none when it has ended with
    `CanceledException`. -/
inductive TaskPoint (R V O : Type) where
  | initial (b : Body R V O)
  | awaiting (next : R → Body R V O)
  | final (value : Option V)

/-- Its frame; `parent` tells whether `parentHandle` is set. The flag that `parentCanceled` points
    to is the one of the wrapper. -/
structure TaskFrame (R V O : Type) where
  canceled : Bool
  parent : Bool
  point : TaskPoint R V O

/-- Where a wrapper is: not started, suspended until its task is done, in its body, at its end. -/
inductive WrapperPoint where
  | initial
  | joined
  | running
  | final
  deriving DecidableEq, Repr

/-- The frame of a wrapper, which holds the handle of its task. It has been `Run` without a
    `parentCanceled`, and nobody awaits it. -/
structure WrapperFrame where
  canceled : Bool
  point : WrapperPoint
  deriving DecidableEq, Repr

/-- A competing task and its wrapper, as far as they exist. -/
structure Lane (R V O : Type) where
  task : Option (TaskFrame R V O)
  wrapper : Option WrapperFrame

/-- Where `AnyOf` is. -/
inductive AnyOfPoint (V : Type) where
  | running
  | suspended
  | final (value : Option (Nat × V))

/-- The frame of `AnyOf`; `thisHandle` and `parent` tell whether `thisHandle` and `parentHandle` are
    set. The flag that `parentCanceled` points to is the one of the caller. -/
structure AnyOfFrame (V : Type) where
  canceled : Bool
  parent : Bool
  ret : Option (Nat × V)
  thisHandle : Bool
  point : AnyOfPoint V

/-- Where the caller is: suspended in its await, behind it, or at its end. -/
inductive CallerPoint where
  | waiting
  | beyond
  | final
  deriving DecidableEq, Repr

/-- The frame of the caller, a root task, which holds the handle of `AnyOf` as long as it waits. -/
structure CallerFrame where
  canceled : Bool
  point : CallerPoint
  deriving DecidableEq, Repr

structure AnyOfState (R V O : Type) where
  lanes : List (Lane R V O)
  anyOf : Option (AnyOfFrame V)
  caller : Option CallerFrame

def AnyOfState.set {R V O : Type} (s : AnyOfState R V O) (k : Nat) (l : Lane R V O) :
    AnyOfState R V O := { s with lanes := s.lanes.set k l }

inductive FrameName where
  | task (k : Nat)
  | wrapper (k : Nat)
  | anyOf
  | caller
  deriving DecidableEq, Repr

/-- What can be seen: the statements of competing task `k`, its completion, the result with which
    the caller goes on, frames that are freed. `undefined` is an access to a frame that does not
    exist. -/
inductive RaceEvent (V O : Type) where
  | exec (k : Nat) (o : O)
  | awaits (k : Nat)
  | completed (k : Nat) (v : V)
  | resumed (k : Nat) (v : V)
  | freed (f : FrameName)
  | undefined

section Model

variable {R V O : Type}

/-- Where a body comes to the next time it gives control away. -/
inductive Stop (R V O : Type) where
  | suspended (next : R → Body R V O)
  | completed (v : V)

/-- Task `k` runs. -/
def Body.run (k : Nat) : Body R V O → List (RaceEvent V O) × Stop R V O
  | .exec o rest =>
    let (evs, stop) := rest.run k
    (.exec k o :: evs, stop)
  | .await next => ([.awaits k], .suspended next)
  | .ret v => ([.completed k v], .completed v)

def TaskFrame.done (t : TaskFrame R V O) : Bool :=
  match t.point with
  | .final _ => true
  | _ => false

/-! ## 2. Handles -/

/-- `~TaskHandle` of the parameter `task` of a wrapper. -/
def Lane.dropTask (k : Nat) (l : Lane R V O) : Lane R V O × List (RaceEvent V O) :=
  match l.task with
  | none => (l, [.undefined])
  | some t =>
    if t.done then ({ l with task := none }, [.freed (.task k)])
    else ({ l with task := some { t with canceled := true } }, [])

/-- The frame of a wrapper is destroyed, and its parameter with it. -/
def Lane.freeWrapper (k : Nat) (l : Lane R V O) : Lane R V O × List (RaceEvent V O) :=
  let (l, evs) := l.dropTask k
  ({ l with wrapper := none }, evs ++ [.freed (.wrapper k)])

/-- `~TaskHandle` of an element of `handles`. -/
def Lane.dropWrapper (k : Nat) (l : Lane R V O) : Lane R V O × List (RaceEvent V O) :=
  match l.wrapper with
  | none => (l, [.undefined])
  | some w =>
    if w.point = .final then l.freeWrapper k
    else ({ l with wrapper := some { w with canceled := true } }, [])

/-- `handles` goes out of scope: its elements from `k` on, from the last to the first. -/
def dropHandles (k : Nat) : List (Lane R V O) → List (Lane R V O) × List (RaceEvent V O)
  | [] => ([], [])
  | l :: ls =>
    let (ls, evs) := dropHandles (k + 1) ls
    let (l, evs') := l.dropWrapper k
    (l :: ls, evs ++ evs')

/-! ## 3. Resumptions -/

/-- The caller gets the result of `AnyOf`, or `CanceledException` and ends with it; either way the
    handle of `AnyOf` is destroyed, and so its frame. A caller whose handle is gone is not suspended
    at its end. -/
def resumeCaller (s : AnyOfState R V O) : AnyOfState R V O × List (RaceEvent V O) :=
  match s.caller, s.anyOf with
  | some c, some ⟨_, _, _, _, .final value⟩ =>
    if c.canceled then
      ({ s with anyOf := none, caller := none }, [.freed .anyOf, .freed .caller])
    else
      match value with
      | some (k, v) =>
        ({ s with anyOf := none, caller := some { c with point := .beyond } },
          [.resumed k v, .freed .anyOf])
      | none =>
        ({ s with anyOf := none, caller := some { c with point := .final } }, [.freed .anyOf])
  | _, _ => (s, [.undefined])

/-- The body of `AnyOf` is left, and then comes `final_suspend`. -/
def finishAnyOf (s : AnyOfState R V O) (a : AnyOfFrame V) (value : Option (Nat × V)) :
    AnyOfState R V O × List (RaceEvent V O) :=
  let (lanes, evs) := dropHandles 0 s.lanes
  if a.canceled then ({ s with lanes := lanes, anyOf := none }, evs ++ [.freed .anyOf])
  else
    let s := { s with lanes := lanes, anyOf := some { a with point := .final value } }
    if a.parent then
      let (s, evs') := resumeCaller s
      (s, evs ++ evs')
    else (s, evs)

/-- `AnyOf` goes on behind `suspend_always`. -/
def resumeAnyOf (s : AnyOfState R V O) : AnyOfState R V O × List (RaceEvent V O) :=
  match s.anyOf, s.caller with
  | some a, some c =>
    if a.canceled || c.canceled then finishAnyOf s a none
    else
      match a.ret with
      | some r => finishAnyOf s a (some r)
      | none => (s, [.undefined])
  | _, _ => (s, [.undefined])

/-- The body of a wrapper is left, and then comes `final_suspend`. -/
def finishWrapper (k : Nat) (s : AnyOfState R V O) : AnyOfState R V O × List (RaceEvent V O) :=
  match s.lanes[k]? with
  | some l =>
    match l.wrapper with
    | none => (s, [.undefined])
    | some w =>
      if w.canceled then
        let (l, evs) := l.freeWrapper k
        (s.set k l, evs)
      else (s.set k { l with wrapper := some { w with point := .final } }, [])
  | none => (s, [.undefined])

/-- A wrapper has got the value of its task: `ret.emplace`, and `thisHandle.resume`. -/
def emplace (k : Nat) (v : V) (s : AnyOfState R V O) : AnyOfState R V O × List (RaceEvent V O) :=
  match s.anyOf with
  | none => (s, [.undefined])
  | some a =>
    let s := { s with anyOf := some { a with ret := some (k, v) } }
    if a.thisHandle then resumeAnyOf s else (s, [])

/-- A wrapper goes on behind the await of its task, which has ended with `value`. -/
def resumeWrapper (k : Nat) (value : Option V) (s : AnyOfState R V O) :
    AnyOfState R V O × List (RaceEvent V O) :=
  match s.lanes[k]? with
  | some l =>
    match l.wrapper with
    | none => (s, [.undefined])
    | some w =>
      let running := s.set k { l with wrapper := some { w with point := .running } }
      if w.canceled then finishWrapper k running
      else
        match value with
        | none => finishWrapper k running
        | some v =>
          let (s, evs) := emplace k v running
          let (s, evs') := finishWrapper k s
          (s, evs ++ evs')
  | none => (s, [.undefined])

/-- The body of a task is left, and then comes `final_suspend`. -/
def finishTask (k : Nat) (l : Lane R V O) (t : TaskFrame R V O) (value : Option V)
    (s : AnyOfState R V O) : AnyOfState R V O × List (RaceEvent V O) :=
  if t.canceled then (s.set k { l with task := none }, [.freed (.task k)])
  else
    let s := s.set k { l with task := some { t with point := .final value } }
    if t.parent then resumeWrapper k value s else (s, [])

/-- A task runs from the point where it has control. -/
def runTask (k : Nat) (l : Lane R V O) (t : TaskFrame R V O) (b : Body R V O)
    (s : AnyOfState R V O) : AnyOfState R V O × List (RaceEvent V O) :=
  match b.run k with
  | (evs, .suspended next) =>
    (s.set k { l with task := some { t with point := .awaiting next } }, evs)
  | (evs, .completed v) =>
    let (s, evs') := finishTask k l t (some v) s
    (s, evs ++ evs')

/-- The awaiter of task `k` resumes it with `r`. -/
def resumeTask (k : Nat) (r : R) (s : AnyOfState R V O) :
    AnyOfState R V O × List (RaceEvent V O) :=
  match s.lanes[k]? with
  | some l =>
    match l.task with
    | some t =>
      match t.point with
      | .awaiting next =>
        match l.wrapper with
        | none => (s, [.undefined])
        | some w =>
          if t.canceled || w.canceled then finishTask k l t none s else runTask k l t (next r) s
      | _ => (s, [])
    | none => (s, [])
  | none => (s, [])

/-! ## 4. The call -/

/-- `Run` of wrapper `k`: the body of `TaskWrapper` up to where it is suspended. -/
def runWrapper (k : Nat) (s : AnyOfState R V O) : AnyOfState R V O × List (RaceEvent V O) :=
  match s.lanes[k]?, s.anyOf with
  | some ⟨some t, some w⟩, some a =>
    let l : Lane R V O := ⟨some t, some { w with point := .running }⟩
    if w.canceled || a.ret.isSome then
      finishWrapper k (s.set k l)
    else
      match t.point with
      | .initial b =>
        let (s, evs) := if t.canceled then finishTask k l t none s else runTask k l t b s
        match s.lanes[k]? with
        | some ⟨some t, some w⟩ =>
          match t.point with
          | .final value =>
            let (s, evs') := resumeWrapper k value s
            (s, evs ++ evs')
          | _ => (s.set k ⟨some { t with parent := true }, some { w with point := .joined }⟩, evs)
        | _ => (s, evs ++ [.undefined])
      | _ => (s, [.undefined])
  | _, _ => (s, [.undefined])

/-- The loop over `handles`, with `n` of them left from `k` on. -/
def runHandles (k : Nat) : Nat → AnyOfState R V O → AnyOfState R V O × List (RaceEvent V O)
  | 0, s => (s, [])
  | n + 1, s =>
    let (s, evs) := runWrapper k s
    let (s, evs') := runHandles (k + 1) n s
    (s, evs ++ evs')

/-- The frames when the loop begins. -/
def AnyOfState.new (tasks : List (Body R V O)) : AnyOfState R V O :=
  ⟨tasks.map fun b => ⟨some ⟨false, false, .initial b⟩, some ⟨false, .initial⟩⟩,
    some ⟨false, false, none, false, .running⟩, some ⟨false, .waiting⟩⟩

/-- `co_await AnyOf(tasks...)`. -/
def anyOf (tasks : List (Body R V O)) : AnyOfState R V O × List (RaceEvent V O) :=
  let (s, evs) := runHandles 0 tasks.length (AnyOfState.new tasks)
  match s.anyOf with
  | none => (s, evs ++ [.undefined])
  | some a =>
    match a.ret with
    | none =>
      let a := { a with parent := true, thisHandle := true, point := .suspended }
      ({ s with anyOf := some a }, evs)
    | some r =>
      let (s, evs') := finishAnyOf s a (some r)
      let (s, evs'') := resumeCaller s
      (s, evs ++ (evs' ++ evs''))

/-- `~TaskHandle` of the caller. -/
def destroyCaller (s : AnyOfState R V O) : AnyOfState R V O × List (RaceEvent V O) :=
  match s.caller with
  | none => (s, [])
  | some c =>
    if c.point = .final then ({ s with caller := none }, [.freed .caller])
    else ({ s with caller := some { c with canceled := true } }, [])

/-- The awaiter of a task resumes it, or the handle of the caller is destroyed. -/
inductive AnyOfInput (R : Type) where
  | resume (k : Nat) (r : R)
  | destroy

/-- The frames, over what can happen once control is back. -/
def anyOfMachine : Machine (AnyOfState R V O) (AnyOfInput R) (RaceEvent V O) where
  step s i :=
    match i with
    | .resume k r => resumeTask k r s
    | .destroy => destroyCaller s

end Model

end Veridie.Utils
