/-
  File:      Veridie/Dispatch/Bridge.lean
  Subject:   The native side and Java (android/jniexec.cpp, android/javainvoker.cpp,
             common/mainexec.cpp, ctrl/timer.cpp): Java calls from any thread, a worker runs the
             controller, and another one calls Java.

  What Java calls is scheduled on one of the workers. The controller runs on the main one; what it
  does there with each event -- the commands it issues, the switches it requests -- is done one after
  the other, before its task ends. A command goes to the other worker as long as its `JavaInvoker`
  lives: as long as it is the one in the `Context`, or a task holds it that passes a command. A
  worker keeps a task until it takes the next one.

  A command that is refused, or for which there is no number, answers `INTEROP_FAILURE` at once: a
  coroutine that awaits it does not suspend, and goes on in the same task, before anything that stands
  behind the command there.

  One step is taken for two assignments in two places: `BridgeReady` replaces the invoker for the user
  interface and the one for Bluetooth, and `OnUnload` resets both.

  * `Job`, `JniJob` -- the tasks of the two workers;
  * `Bridge` -- both workers, the controller and the `Context`;
  * `Bridge.run`, `Bridge.perform` -- the controller, and what it does;
  * `Bridge.answer` -- the coroutine of a refused command goes on;
  * `bridge` -- everything that can happen.
-/
import Veridie.Fsm.Events
import Veridie.Fsm.Returns
import Veridie.Dispatch.Calls

namespace Veridie.Dispatch

open Veridie.Lib Veridie.Dice Veridie.Fsm
open Veridie.Sign (Cmd)

/-! ## 1. Tasks -/

/-- The two invokers: "receiveUiCommand" and "receiveBtCommand". -/
inductive Invoker where
  | ui | bt
  deriving DecidableEq, Repr

/-- `UiCommand` and `BtCommand`. -/
def invokerOf : Cmd → Invoker
  | .enableBluetooth | .startListening | .startDiscovery | .stopListening | .stopDiscovery
  | .closeConnection _ _ | .sendMessage _ _ | .sendLongMessage _ _ | .resetConnections => .bt
  | .negotiationStart | .negotiationStop _ | .showAndExit _ | .showToast _ _
  | .showRequest _ _ _ _ | .showResponse _ _ _ _ | .showLongResponse _ _ _ _ | .resetGame => .ui

/-- The tasks of the main worker: `Start` with the invokers of some `bridgeReady`, an event, what
    resumes a coroutine (an answer, or a timer), and a coroutine of `SwitchToState`. -/
inductive Job where
  | start (bridge : Nat)
  | event (eventId : Int) (args : List Str)
  | resume
  | switch (target : Target)

/-- The tasks of the other one; the last is `PassCommand`, with the `JavaInvoker` that it holds. -/
inductive JniJob where
  | bridgeReady
  | unload
  | pass (cmd : Cmd) (bridge : Nat)

/-- `invokers` is the number of those in the `Context`, `manager` of those that the controller has got;
    `work` is the last task of the JNI worker. `pending` is what the main thread does next in its
    task, up to a command that is awaited, and `later` what stands behind that; `refusal` is such a
    command that has been refused. `forward` is what the JNI thread still does. -/
structure Bridge where
  main : Worker Job
  jni : Worker JniJob
  work : Option (Task JniJob)
  invokers : Option Nat
  made : Nat
  forward : Option Nat
  manager : Option Nat
  state : Option FsmState
  round : UInt32
  pending : List Out
  later : List Trace
  refusal : Option Cmd

/-- What can be seen: the events of the workers, the calls of the `n`-th thread of Java on each of them,
    what the controller is made to do, with what stands behind that in its task, what it does, and the
    fate of each command. -/
inductive BridgeEvent where
  | main (e : WorkerEvent Job)
  | jni (e : WorkerEvent JniJob)
  | called (n : Nat) (job : Job)
  | calledJni (n : Nat) (job : JniJob)
  | handled (i : ControllerInput) (behind : List Trace)
  | did (t : Trace)
  | invoked (cmd : Cmd)
  | refused (cmd : Cmd)
  | full (cmd : Cmd)
  | passed (cmd : Cmd)

/-- The capacity of both workers. -/
def unbounded : Nat := 2 ^ 64 - 1

def Bridge.initial (now : Int) : Bridge :=
  ⟨Worker.new Job unbounded now, Worker.new JniJob unbounded now, none, none, 0, none, none, none, 0,
    [], [], none⟩

namespace Bridge

/-- The main worker makes a step. -/
def onMain (b : Bridge) (r : Worker Job × List (WorkerEvent Job)) : Bridge × List BridgeEvent :=
  ({ b with main := r.1 }, r.2.map .main)

/-- The other worker makes a step. -/
def onJni (b : Bridge) (r : Worker JniJob × List (WorkerEvent JniJob)) : Bridge × List BridgeEvent :=
  ({ b with jni := r.1 }, r.2.map .jni)

/-! ## 2. Calls from Java -/

/-- The `n`-th thread of Java as the JNI worker sees it: 0 is its own, which Java runs on when it
    receives a command. -/
def caller : Nat → Thread
  | 0 => .worker
  | n + 1 => .other (n + 1)

/-- The thread can call something on the main worker. -/
def callsMain (b : Bridge) (n : Nat) : Bool :=
  match n with
  | 0 => b.jni.free .worker
  | n + 1 => (b.jni.callOf (.other (n + 1))).isNone

/-- `n` calls `Schedule` of the main worker. -/
def call (b : Bridge) (n : Nat) (job : Job) : Bridge × List BridgeEvent :=
  if b.main.free (.other n) then
    let r := b.onMain (b.main.schedule (.other n) true 0 (.work job))
    (r.1, .called n job :: r.2)
  else (b, [])

/-- `core::Exec` from a thread of Java. -/
def exec (b : Bridge) (n : Nat) (job : Job) : Bridge × List BridgeEvent :=
  if b.callsMain n then b.call n job else (b, [])

/-- `jni::Exec`, or a `JniWorkerScheduler`, from a thread of Java. -/
def execJni (b : Bridge) (n : Nat) (job : JniJob) : Bridge × List BridgeEvent :=
  if (b.main.callOf (.other n)).isNone && b.jni.free (caller n) then
    let r := b.onJni (b.jni.schedule (caller n) true 0 (.work job))
    (r.1, .calledJni n job :: r.2)
  else (b, [])

/-! ## 3. The main worker -/

/-- The controller, with the switches that it is to find. -/
def controller (b : Bridge) (switches : List Target) : Controller :=
  ⟨b.manager.isSome, b.state, switches, b.round⟩

/-- A command whose coroutine the thread may go on with. -/
def awaits : Trace → Bool
  | .did (.issue cmd) => cmd.awaited
  | _ => false

/-- What the thread does up to the first such command. -/
def reached (todo : List Trace) : List Trace := todo.take (todo.findIdx awaits + 1)

/-- What stands behind it. -/
def behind (todo : List Trace) : List Trace := todo.drop (todo.findIdx awaits + 1)

/-- The thread goes on with what is to be done. -/
def goOn (b : Bridge) (todo : List Trace) : Bridge × List BridgeEvent :=
  ({ b with pending := didOuts (reached todo), later := behind todo, refusal := none },
    (reached todo).map .did)

/-- The controller does something, before what stands behind it in the task. -/
def execute (ser : ISerializer) (b : Bridge) (switches : List Target) (i : ControllerInput) :
    Bridge × List BridgeEvent :=
  let r := (Fsm.controller ser).step (b.controller switches) i
  let after := { b with state := r.1.state, round := r.1.round }.goOn (r.2 ++ b.later)
  (after.1, .handled i b.later :: after.2)

/-- A task runs: `roll` is what the engine would draw, `resumed` the coroutine that the task resumes. -/
def run (ser : ISerializer) (b : Bridge) (roll : Roll) (resumed : Option Resume) :
    Job → Bridge × List BridgeEvent
  | .start bridge =>
    if b.manager.isSome then (b, [.handled .start []])
    else ({ b with manager := some bridge, pending := [.switch (.idle false)] }, [.handled .start []])
  | .event eventId args =>
    match (b.controller []).handed eventId args with
    | some e => b.execute ser [] (.event e roll)
    | none => (b, [])
  | .resume =>
    match resumed with
    | some i => b.execute ser [] (.resume i)
    | none => (b, [])
  | .switch target => b.execute ser [target] .fire

/-- The main worker takes a task. -/
def take (ser : ISerializer) (b : Bridge) (roll : Roll) (resumed : Option Resume) :
    Bridge × List BridgeEvent :=
  let r := b.onMain b.main.getNextTask
  match starts b.main.getNextTask.2 with
  | [⟨_, _, .work job⟩] =>
    let after := r.1.run ser roll resumed job
    (after.1, r.2 ++ after.2)
  | _ => r

/-- The main thread is in its task, and in no call. -/
def mainFree (b : Bridge) : Bool := b.main.free .worker && (b.jni.callOf (.other 0)).isNone

def holds (invoker : Invoker) (bridge : Nat) : Task JniJob → Bool
  | .work (.pass cmd number) => invokerOf cmd = invoker && number = bridge
  | _ => false

/-- `parent.lock()` finds the `JavaInvoker`. -/
def alive (b : Bridge) (invoker : Invoker) (bridge : Nat) : Bool :=
  b.invokers = some bridge || b.jni.tasks.any (fun e => holds invoker bridge e.task) ||
    b.jni.calls.any (fun c => holds invoker bridge c.task) || b.work.any (holds invoker bridge)

/-- A command answers `INTEROP_FAILURE`. -/
def drop (b : Bridge) (cmd : Cmd) (rest : List Out) (e : BridgeEvent) : Bridge × List BridgeEvent :=
  ({ b with pending := rest, refusal := if cmd.awaited then some cmd else none }, [e])

/-- The main thread does the next thing: `SwitchToState` waits for a timer of no delay, and a command
    is passed to the other worker by its invoker. -/
def perform (b : Bridge) : Bridge × List BridgeEvent :=
  if b.mainFree && b.refusal.isNone then
    match b.pending with
    | [] => b.goOn b.later
    | .switch target :: rest =>
      { b with pending := rest }.onMain (b.main.schedule .worker true 0 (.work (.switch target)))
    | .issue cmd :: rest =>
      match b.manager with
      | none => b.drop cmd rest (.refused cmd)
      | some bridge =>
        if b.alive (invokerOf cmd) bridge then
          let r := { b with pending := rest }.onJni
            (b.jni.schedule (.other 0) true 0 (.work (.pass cmd bridge)))
          (r.1, .invoked cmd :: r.2)
        else b.drop cmd rest (.refused cmd)
    | _ :: rest => ({ b with pending := rest }, [])
  else (b, [])

/-- The manager finds no number for the next command. -/
def storageFull (b : Bridge) : Bridge × List BridgeEvent :=
  if b.mainFree && b.refusal.isNone then
    match b.pending with
    | .issue cmd :: rest => b.drop cmd rest (.full cmd)
    | _ => (b, [])
  else (b, [])

/-- The coroutine that awaits the refused command goes on: `await_ready` is true. -/
def answer (ser : ISerializer) (b : Bridge) (i : Resume) : Bridge × List BridgeEvent :=
  match b.refusal, b.state with
  | some cmd, some s =>
    if s.awaits cmd i && i.answer = some .interopFailure then b.execute ser [] (.resume i) else (b, [])
  | _, _ => (b, [])

/-- `WaitFor`, for a coroutine of a state. -/
def waitFor (b : Bridge) (delay : Int) : Bridge × List BridgeEvent :=
  if b.mainFree then b.onMain (b.main.schedule .worker true (max 0 delay) (.work .resume))
  else (b, [])

/-- The task of the main worker ends. -/
def finish (b : Bridge) (exception : Option Str) : Bridge × List BridgeEvent :=
  if b.pending = [] ∧ b.later = [] ∧ b.refusal = none ∧ b.jni.callOf (.other 0) = none then
    b.onMain (b.main.finish exception)
  else (b, [])

/-! ## 4. The JNI worker -/

/-- A task runs. -/
def runJni (b : Bridge) : JniJob → Bridge × List BridgeEvent
  | .bridgeReady =>
    ({ b with invokers := some b.made, made := b.made + 1, forward := some b.made }, [])
  | .unload => ({ b with invokers := none }, [])
  | .pass cmd _ => (b, [.passed cmd])

/-- The worker takes a task, and the one before is destroyed. -/
def takeJni (b : Bridge) : Bridge × List BridgeEvent :=
  let r := b.onJni b.jni.getNextTask
  match starts b.jni.getNextTask.2 with
  | [⟨_, _, task⟩] =>
    let b := { r.1 with work := some task }
    match task with
    | .work job =>
      let after := b.runJni job
      (after.1, r.2 ++ after.2)
    | .stop => (b, r.2)
  | _ => r

/-- The second half of `BridgeReady`: `Start` is scheduled on the main worker. -/
def forwardStart (b : Bridge) : Bridge × List BridgeEvent :=
  match b.forward with
  | none => (b, [])
  | some bridge =>
    if b.callsMain 0 && b.main.free (.other 0) then { b with forward := none }.call 0 (.start bridge)
    else (b, [])

/-- The task of the JNI worker ends. -/
def finishJni (b : Bridge) (exception : Option Str) : Bridge × List BridgeEvent :=
  if b.forward = none ∧ b.main.callOf (.other 0) = none then b.onJni (b.jni.finish exception)
  else (b, [])

end Bridge

/-! ## 5. Everything that can happen -/

/-- The clock moves on; Java calls `sendEvent`, `sendResponse`, `bridgeReady` or unloads the library; a
    thread enters its section in one of the workers; and what the two threads do. -/
inductive BridgeInput where
  | tick (d : Nat)
  | sendEvent (n : Nat) (eventId : Int) (args : List Str)
  | sendResponse (n : Nat)
  | bridgeReady (n : Nat)
  | unload (n : Nat)
  | lock (t : Thread)
  | lockJni (t : Thread)
  | take (roll : Roll) (resumed : Option Resume)
  | perform
  | storageFull
  | answer (i : Resume)
  | waitFor (delay : Int)
  | finish (exception : Option Str)
  | takeJni
  | forwardStart
  | finishJni (exception : Option Str)

def bridge (ser : ISerializer) : Machine Bridge BridgeInput BridgeEvent where
  step b i :=
    match i with
    | .tick d =>
      ({ b with main := { b.main with now := b.main.now + d },
                jni := { b.jni with now := b.jni.now + d } }, [])
    | .sendEvent n eventId args => b.exec n (.event eventId args)
    | .sendResponse n => b.exec n .resume
    | .bridgeReady n => b.execJni n .bridgeReady
    | .unload n => b.execJni n .unload
    | .lock t => b.onMain (b.main.lock t)
    | .lockJni t => b.onJni (b.jni.lock t)
    | .take roll resumed => b.take ser roll resumed
    | .perform => b.perform
    | .storageFull => b.storageFull
    | .answer i => b.answer ser i
    | .waitFor delay => b.waitFor delay
    | .finish exception => b.finish exception
    | .takeJni => b.takeJni
    | .forwardStart => b.forwardStart
    | .finishJni exception => b.finishJni exception

end Veridie.Dispatch
