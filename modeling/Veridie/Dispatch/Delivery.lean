/-
  File:      Veridie/Dispatch/Delivery.lean
  Subject:   What arrives on the other side of the bridge: the calls of Java on the main worker, and
             the commands of the controller in Java.

  * `MainStep`, `JniStep` -- a step of the bridge is one of the worker, or leaves it as it is;
  * `events_in_order` -- the calls that a thread of Java makes are executed, each once, in the order in
    which they were made;
  * `Passing`, `commands_in_order` -- commands are dealt with in the order in which they were issued,
    and each one that an invoker has accepted is passed to Java once, in this order.
-/
import Veridie.Dispatch.Relay

namespace Veridie.Dispatch

open Veridie.Lib Veridie.Dice Veridie.Fsm
open Veridie.Sign (Cmd)

/-! ## 1. Calls from Java -/

def BridgeEvent.main? : BridgeEvent → Option (WorkerEvent Job)
  | .main e => some e
  | _ => none

def BridgeEvent.jni? : BridgeEvent → Option (WorkerEvent JniJob)
  | .jni e => some e
  | _ => none

/-- What the main worker does in a run. -/
def mainLog (log : List BridgeEvent) : List (WorkerEvent Job) := log.filterMap BridgeEvent.main?

/-- What the JNI worker does. -/
def jniLog (log : List BridgeEvent) : List (WorkerEvent JniJob) := log.filterMap BridgeEvent.jni?

/-- What the `n`-th thread of Java calls on the main worker. -/
def callsOf (n : Nat) (log : List BridgeEvent) : List (Task Job) :=
  log.filterMap fun
    | .called m job => if m = n then some (.work job) else none
    | _ => none

/-- What it calls on the other one. -/
def jniCallsOf (n : Nat) (log : List BridgeEvent) : List (Task JniJob) :=
  log.filterMap fun
    | .calledJni m job => if m = n then some (.work job) else none
    | _ => none

/-- What a step does to the main worker: nothing, or a step of it. -/
inductive MainStep (n : Nat) (b : Bridge) (after : Bridge × List BridgeEvent) : Prop where
  | still (hmain : after.1.main = b.main) (hlog : mainLog after.2 = [])
      (hcalls : callsOf n after.2 = [])
  | step (k : WorkerInput Job) (hwaits : k.Waits (.other n))
      (hmain : after.1.main = (workerMachine.step b.main k).1)
      (hlog : mainLog after.2 = (workerMachine.step b.main k).2)
      (hcalls : callsOf n after.2 = k.calls (.other n) b.main)

/-- What it does to the JNI worker. -/
inductive JniStep (n : Nat) (b : Bridge) (after : Bridge × List BridgeEvent) : Prop where
  | still (hjni : after.1.jni = b.jni) (hlog : jniLog after.2 = [])
      (hcalls : jniCallsOf n after.2 = [])
  | step (k : WorkerInput JniJob) (hwaits : k.Waits (Bridge.caller n))
      (hjni : after.1.jni = (workerMachine.step b.jni k).1)
      (hlog : jniLog after.2 = (workerMachine.step b.jni k).2)
      (hcalls : jniCallsOf n after.2 = k.calls (Bridge.caller n) b.jni)

/-- An event that neither the main worker nor a caller of it shows. -/
def BridgeEvent.offMain : BridgeEvent → Bool
  | .main _ | .called _ _ => false
  | .jni _ | .calledJni _ _ | .handled _ _ | .did _ => true
  | .invoked _ | .refused _ | .full _ | .passed _ => true

/-- One that neither the JNI worker nor a caller of it shows. -/
def BridgeEvent.offJni : BridgeEvent → Bool
  | .jni _ | .calledJni _ _ => false
  | .main _ | .called _ _ | .handled _ _ | .did _ => true
  | .invoked _ | .refused _ | .full _ | .passed _ => true

section Calls

variable {ser : ISerializer} {b : Bridge} {n : Nat} {i : BridgeInput} {log evs : List BridgeEvent}

theorem logs_offMain (h : ∀ e ∈ evs, e.offMain = true) : mainLog evs = [] ∧ callsOf n evs = [] := by
  refine ⟨List.filterMap_eq_nil_iff.mpr fun e he => ?_, List.filterMap_eq_nil_iff.mpr fun e he => ?_⟩
  · cases e with
    | main e => exact absurd (h _ he) Bool.false_ne_true
    | _ => rfl
  · cases e with
    | called m job => exact absurd (h _ he) Bool.false_ne_true
    | _ => rfl

theorem logs_offJni (h : ∀ e ∈ evs, e.offJni = true) : jniLog evs = [] ∧ jniCallsOf n evs = [] := by
  refine ⟨List.filterMap_eq_nil_iff.mpr fun e he => ?_, List.filterMap_eq_nil_iff.mpr fun e he => ?_⟩
  · cases e with
    | jni e => exact absurd (h _ he) Bool.false_ne_true
    | _ => rfl
  · cases e with
    | calledJni m job => exact absurd (h _ he) Bool.false_ne_true
    | _ => rfl

theorem mainLog_map (es : List (WorkerEvent Job)) : mainLog (es.map .main) = es :=
  List.filterMap_map.trans List.filterMap_some

theorem jniLog_map (es : List (WorkerEvent JniJob)) : jniLog (es.map .jni) = es :=
  List.filterMap_map.trans List.filterMap_some

theorem worker_ne_other (n : Nat) : Thread.worker ≠ .other n := nofun

theorem callsOf_map (es : List (WorkerEvent Job)) : callsOf n (es.map .main) = [] := by
  refine List.filterMap_eq_nil_iff.mpr fun e he => ?_
  obtain ⟨x, _, rfl⟩ := List.mem_map.mp he
  rfl

theorem jniCallsOf_map (es : List (WorkerEvent JniJob)) : jniCallsOf n (es.map .jni) = [] := by
  refine List.filterMap_eq_nil_iff.mpr fun e he => ?_
  obtain ⟨x, _, rfl⟩ := List.mem_map.mp he
  rfl

theorem caller_injective {m n : Nat} (h : Bridge.caller m = Bridge.caller n) : m = n := by
  cases m with
  | zero =>
    cases n with
    | zero => rfl
    | succ n => exact nomatch h
  | succ m =>
    cases n with
    | zero => exact nomatch h
    | succ n => exact Thread.other.inj h

/-- The main thread is none of those that Java calls from. -/
theorem caller_ne_main (n : Nat) : Bridge.caller n ≠ .other 0 := by
  cases n with
  | zero => exact nofun
  | succ n => exact fun h => nomatch Thread.other.inj h

/-- What the controller does is off both workers. -/
theorem execute_off (used : List Target) (i : ControllerInput) :
    ∀ e ∈ (b.execute ser used i).2, e.offMain = true ∧ e.offJni = true := by
  refine List.forall_mem_cons.mpr ⟨⟨rfl, rfl⟩, ?_⟩
  exact List.forall_mem_map.mpr fun _ _ => ⟨rfl, rfl⟩

theorem run_off (roll : Roll) (resumed : Option Resume) (job : Job) :
    (b.run ser roll resumed job).1.main = b.main ∧ (b.run ser roll resumed job).1.jni = b.jni ∧
      ∀ e ∈ (b.run ser roll resumed job).2, e.offMain = true ∧ e.offJni = true := by
  have hstart : ∀ e ∈ [BridgeEvent.handled .start []], e.offMain = true ∧ e.offJni = true :=
    List.forall_mem_singleton.mpr ⟨rfl, rfl⟩
  cases job with
  | start number =>
    unfold Bridge.run
    dsimp only
    split
    · exact ⟨rfl, rfl, hstart⟩
    · exact ⟨rfl, rfl, hstart⟩
  | event eventId args =>
    unfold Bridge.run
    dsimp only
    split
    · exact ⟨rfl, rfl, execute_off [] _⟩
    · exact ⟨rfl, rfl, List.forall_mem_nil _⟩
  | resume =>
    unfold Bridge.run
    cases resumed with
    | none => exact ⟨rfl, rfl, List.forall_mem_nil _⟩
    | some i => exact ⟨rfl, rfl, execute_off [] _⟩
  | switch target => exact ⟨rfl, rfl, execute_off [target] .fire⟩

theorem dropped_off (o : Out) (isFull : Bool) :
    ∀ e ∈ dropped o isFull, e.offMain = true ∧ e.offJni = true := by
  cases o with
  | issue cmd =>
    cases isFull with
    | true => exact List.forall_mem_singleton.mpr ⟨rfl, rfl⟩
    | false => exact List.forall_mem_singleton.mpr ⟨rfl, rfl⟩
  | _ => exact List.forall_mem_nil _

theorem step_take {α : Type} {w : Worker α} {e : Entry α} {es : List (Entry α)}
    (hphase : w.phase = .waiting) (htasks : w.tasks = e :: es) (hdue : e.timeToFire ≤ w.now) :
    workerMachine.step w .take = (w.running e es, [.started e w.now]) := by
  simp only [workerMachine, Worker.getNextTask, hphase, htasks, if_pos hdue]
  rfl

/-- **The main worker of the bridge is a worker.** -/
theorem main_does (n : Nat) {after : Bridge × List BridgeEvent} (hdoes : Does ser b i after) :
    MainStep n b after := by
  have hstill : ∀ {after : Bridge × List BridgeEvent}, after.1.main = b.main →
      (∀ e ∈ after.2, e.offMain = true) → MainStep n b after := fun hmain hoff =>
    .still hmain (logs_offMain (n := n) hoff).1 (logs_offMain hoff).2
  cases hdoes with
  | idle => exact hstill rfl (List.forall_mem_nil _)
  | tick d => exact .step (.tick d) trivial rfl rfl rfl
  | main k hk =>
    refine .step k ?_ rfl (mainLog_map _) ((callsOf_map _).trans ?_)
    · cases hk with
      | waitFor delay => exact fun h => nomatch h
      | lock t => trivial
      | finish exception _ _ _ => trivial
    · cases hk with
      | waitFor delay => exact (calls_of_ne (worker_ne_other n) b.main _ _ _).symm
      | lock t => rfl
      | finish exception _ _ _ => rfl
  | called m job forward _ _ _ hfree =>
    refine .step (.schedule (.other m) true 0 (.work job)) (fun _ => ⟨rfl, rfl⟩) rfl
      (schedule_events b.main _ _ _ _).symm ?_
    by_cases hm : m = n
    · subst hm
      rw [WorkerInput.calls, if_pos ⟨rfl, hfree⟩]
      exact List.filterMap_cons_some (if_pos rfl)
    · rw [calls_of_ne fun h => hm (Thread.other.inj h)]
      exact List.filterMap_cons_none (if_neg hm)
  | jni k _ => exact hstill rfl (List.forall_mem_map.mpr fun _ _ => rfl)
  | calledJni m job _ _ _ => exact hstill rfl (List.forall_mem_singleton.mpr rfl)
  | ran e es job roll resumed hphase htasks hdue _ =>
    obtain ⟨hmain, _, hoff⟩ := @run_off ser { b with main := b.main.running e es } roll resumed job
    obtain ⟨hlog, hcalls⟩ := logs_offMain (n := n) fun e he => (hoff e he).1
    refine .step .take trivial ?_ ?_ ?_
    · rw [step_take hphase htasks hdue]
      exact hmain
    · rw [step_take hphase htasks hdue]
      exact congrArg (_ :: ·) hlog
    · exact hcalls
  | stopped e es hphase htasks hdue _ =>
    refine .step .take trivial ?_ ?_ rfl
    · rw [step_take hphase htasks hdue]
    · rw [step_take hphase htasks hdue]
      rfl
  | requested target rest _ _ _ =>
    refine .step (.schedule .worker true 0 (.work (.switch target))) (fun h => nomatch h) rfl
      (schedule_events b.main _ _ _ _).symm (calls_of_ne (worker_ne_other n) b.main _ _ _).symm
  | invoked cmd number rest _ _ _ _ _ =>
    exact hstill rfl (List.forall_mem_singleton.mpr rfl)
  | dropped o isFull rest _ _ _ _ => exact hstill rfl fun e he => (dropped_off o isFull e he).1
  | wentOn _ _ => exact hstill rfl (List.forall_mem_map.mpr fun _ _ => rfl)
  | answered cmd s r _ _ _ _ => exact hstill rfl fun e he => (execute_off [] _ e he).1
  | ranJni e es job _ _ _ _ =>
    cases job with
    | bridgeReady => exact hstill rfl (List.forall_mem_singleton.mpr rfl)
    | unload => exact hstill rfl (List.forall_mem_singleton.mpr rfl)
    | pass cmd number =>
      exact hstill rfl (List.forall_mem_cons.mpr ⟨rfl,
        List.forall_mem_singleton.mpr rfl⟩)
  | stoppedJni e es _ _ _ _ => exact hstill rfl (List.forall_mem_singleton.mpr rfl)

/-- **The JNI worker of the bridge is a worker.** -/
theorem jni_does (n : Nat) {after : Bridge × List BridgeEvent} (hdoes : Does ser b i after) :
    JniStep n b after := by
  have hstill : ∀ {after : Bridge × List BridgeEvent}, after.1.jni = b.jni →
      (∀ e ∈ after.2, e.offJni = true) → JniStep n b after := fun hjni hoff =>
    .still hjni (logs_offJni (n := n) hoff).1 (logs_offJni hoff).2
  cases hdoes with
  | idle => exact hstill rfl (List.forall_mem_nil _)
  | tick d => exact .step (.tick d) trivial rfl rfl rfl
  | main k _ => exact hstill rfl (List.forall_mem_map.mpr fun _ _ => rfl)
  | called m job forward _ _ _ _ => exact hstill rfl (List.forall_mem_singleton.mpr rfl)
  | jni k hk =>
    refine .step k ?_ rfl (jniLog_map _) ((jniCallsOf_map _).trans ?_)
    · cases hk with
      | lock t => trivial
      | finish exception => trivial
    · cases hk with
      | lock t => rfl
      | finish exception => rfl
  | calledJni m job _ _ hfree =>
    refine .step (.schedule (Bridge.caller m) true 0 (.work job)) (fun _ => ⟨rfl, rfl⟩) rfl
      (schedule_events b.jni _ _ _ _).symm ?_
    by_cases hm : m = n
    · subst hm
      rw [WorkerInput.calls, if_pos ⟨rfl, hfree⟩]
      exact List.filterMap_cons_some (if_pos rfl)
    · rw [calls_of_ne fun h => hm (caller_injective h)]
      exact List.filterMap_cons_none (if_neg hm)
  | ran e es job roll resumed _ _ _ _ =>
    obtain ⟨_, hjni, hoff⟩ := @run_off ser { b with main := b.main.running e es } roll resumed job
    exact hstill hjni (List.forall_mem_cons.mpr ⟨rfl, fun e he => (hoff e he).2⟩)
  | stopped e es _ _ _ _ => exact hstill rfl (List.forall_mem_singleton.mpr rfl)
  | requested target rest _ _ _ => exact hstill rfl (List.forall_mem_nil _)
  | invoked cmd number rest _ _ _ _ _ =>
    refine .step (.schedule (.other 0) true 0 (.work (.pass cmd number))) (fun _ => ⟨rfl, rfl⟩) rfl
      (schedule_events b.jni _ _ _ _).symm (calls_of_ne (caller_ne_main n).symm b.jni _ _ _).symm
  | dropped o isFull rest _ _ _ _ => exact hstill rfl fun e he => (dropped_off o isFull e he).2
  | wentOn _ _ => exact hstill rfl (List.forall_mem_map.mpr fun _ _ => rfl)
  | answered cmd s r _ _ _ _ => exact hstill rfl fun e he => (execute_off [] _ e he).2
  | ranJni e es job hphase htasks hdue _ =>
    refine .step .take trivial ?_ ?_ ?_
    · rw [step_take hphase htasks hdue]
      cases job <;> rfl
    · rw [step_take hphase htasks hdue]
      cases job <;> rfl
    · cases job <;> rfl
  | stoppedJni e es hphase htasks hdue _ =>
    refine .step .take trivial ?_ ?_ rfl
    · rw [step_take hphase htasks hdue]
    · rw [step_take hphase htasks hdue]
      rfl

theorem main_line (n : Nat) (h : Line (.other n) b.main (mainLog log) (callsOf n log))
    {after : Bridge × List BridgeEvent} (hdoes : Does ser b i after) :
    Line (.other n) after.1.main (mainLog (log ++ after.2)) (callsOf n (log ++ after.2)) := by
  have hlog : mainLog (log ++ after.2) = mainLog log ++ mainLog after.2 := List.filterMap_append
  have hcalls : callsOf n (log ++ after.2) = callsOf n log ++ callsOf n after.2 := List.filterMap_append
  rw [hlog, hcalls]
  cases main_does n hdoes with
  | still hmain hnone hnocall =>
    rw [hmain, hnone, hnocall, List.append_nil, List.append_nil]
    exact h
  | step k hwaits hmain hstep hcall =>
    rw [hmain, hstep, hcall]
    exact h.step hwaits

theorem jni_line (n : Nat) (h : Line (Bridge.caller n) b.jni (jniLog log) (jniCallsOf n log))
    {after : Bridge × List BridgeEvent} (hdoes : Does ser b i after) :
    Line (Bridge.caller n) after.1.jni (jniLog (log ++ after.2)) (jniCallsOf n (log ++ after.2)) := by
  have hlog : jniLog (log ++ after.2) = jniLog log ++ jniLog after.2 := List.filterMap_append
  have hcalls : jniCallsOf n (log ++ after.2) = jniCallsOf n log ++ jniCallsOf n after.2 :=
    List.filterMap_append
  rw [hlog, hcalls]
  cases jni_does n hdoes with
  | still hjni hnone hnocall =>
    rw [hjni, hnone, hnocall, List.append_nil, List.append_nil]
    exact h
  | step k hwaits hjni hstep hcall =>
    rw [hjni, hstep, hcall]
    exact h.step hwaits

end Calls

/-- **Calls arrive in order**: in every run, what a thread of Java has called on one of the workers is,
    in the order of its calls, what has been started, what waits there, and the call that it is in;
    and no task is started twice, or started and still there. -/
theorem events_in_order (ser : ISerializer) (now : Int) (is : List BridgeInput) (n : Nat) :
    Delivered (.other n) ((bridge ser).exec (Bridge.initial now) is).main
      (mainLog ((bridge ser).outs (Bridge.initial now) is))
      (callsOf n ((bridge ser).outs (Bridge.initial now) is)) ∧
    Delivered (Bridge.caller n) ((bridge ser).exec (Bridge.initial now) is).jni
      (jniLog ((bridge ser).outs (Bridge.initial now) is))
      (jniCallsOf n ((bridge ser).outs (Bridge.initial now) is)) := by
  have hlines : Line (.other n) ((bridge ser).exec (Bridge.initial now) is).main
        (mainLog ((bridge ser).outs (Bridge.initial now) is))
        (callsOf n ((bridge ser).outs (Bridge.initial now) is)) ∧
      Line (Bridge.caller n) ((bridge ser).exec (Bridge.initial now) is).jni
        (jniLog ((bridge ser).outs (Bridge.initial now) is))
        (jniCallsOf n ((bridge ser).outs (Bridge.initial now) is)) :=
    Machine.log_invariant (P := fun (b : Bridge) (log : List BridgeEvent) =>
        Line (.other n) b.main (mainLog log) (callsOf n log) ∧
          Line (Bridge.caller n) b.jni (jniLog log) (jniCallsOf n log)) (l := [])
      (fun b log i h =>
        ⟨main_line n h.1 (bridge_does ser b i), jni_line n h.2 (bridge_does ser b i)⟩)
      ⟨Line.new (.other n) unbounded now, Line.new (Bridge.caller n) unbounded now⟩ is
  exact ⟨hlines.1.delivered, hlines.2.delivered⟩

/-! ## 2. Commands -/

/-- A command that the controller has issued. -/
def BridgeEvent.issued? : BridgeEvent → Option Cmd
  | .did (.did (.issue cmd)) => some cmd
  | _ => none

/-- A command that has been dealt with: accepted by an invoker, refused, or without a number. -/
def BridgeEvent.dealt? : BridgeEvent → Option Cmd
  | .invoked cmd => some cmd
  | .refused cmd => some cmd
  | .full cmd => some cmd
  | _ => none

def BridgeEvent.invoked? : BridgeEvent → Option Cmd
  | .invoked cmd => some cmd
  | _ => none

def BridgeEvent.passed? : BridgeEvent → Option Cmd
  | .passed cmd => some cmd
  | _ => none

/-- An event that is not about a command. -/
def BridgeEvent.Silent (e : BridgeEvent) : Prop :=
  e.issued? = none ∧ e.dealt? = none ∧ e.invoked? = none ∧ e.passed? = none

/-- The commands among what the main thread is to do. -/
def issues (outs : List Out) : List Cmd :=
  outs.filterMap fun
    | .issue cmd => some cmd
    | _ => none

/-- Commands are queues: from the controller to the invokers, and from there to Java. -/
structure Passing (b : Bridge) (log : List BridgeEvent) : Prop where
  queue : Lane passOf (.other 0) 0 b.jni
  accepted : log.filterMap BridgeEvent.invoked? =
    log.filterMap BridgeEvent.passed? ++ lane passOf b.jni
  dealt : log.filterMap BridgeEvent.issued? = log.filterMap BridgeEvent.dealt? ++ issues b.pending

section Commands

variable {ser : ISerializer} {b b' : Bridge} {log evs : List BridgeEvent} {i : BridgeInput}

theorem Passing.initial (now : Int) : Passing (Bridge.initial now) [] :=
  ⟨Lane.new passOf (.other 0) 0 unbounded now, rfl, rfl⟩

theorem filterMap_append_none {γ : Type} {f : BridgeEvent → Option γ}
    (h : ∀ e ∈ evs, f e = none) : (log ++ evs).filterMap f = log.filterMap f := by
  rw [List.filterMap_append, List.filterMap_eq_nil_iff.mpr h, List.append_nil]

/-- A step that is not about a command. -/
theorem Passing.still (h : Passing b log) (hevs : ∀ e ∈ evs, e.Silent)
    (hqueue : Lane passOf (.other 0) 0 b'.jni) (hsame : lane passOf b'.jni = lane passOf b.jni)
    (hissues : issues b'.pending = issues b.pending) : Passing b' (log ++ evs) := by
  refine ⟨hqueue, ?_, ?_⟩
  · rw [filterMap_append_none fun e he => (hevs e he).2.2.1,
      filterMap_append_none fun e he => (hevs e he).2.2.2, hsame]
    exact h.accepted
  · rw [filterMap_append_none fun e he => (hevs e he).1,
      filterMap_append_none fun e he => (hevs e he).2.1, hissues]
    exact h.dealt

theorem JniQuiet.queue {k : WorkerInput JniJob} (hk : JniQuiet k)
    (h : Lane passOf (.other 0) 0 b.jni) :
    Lane passOf (.other 0) 0 (workerMachine.step b.jni k).1 ∧
      lane passOf (workerMachine.step b.jni k).1 = lane passOf b.jni := by
  cases hk with
  | lock t => exact h.still trivial rfl nofun
  | finish exception => exact h.still trivial rfl nofun

/-- The thread goes on: the commands that it has reached are to be dealt with. -/
theorem Passing.goOn (h : Passing b log) (hpending : b.pending = []) (evs : List BridgeEvent)
    (hevs : ∀ e ∈ evs, e.Silent) (b₀ : Bridge) (hjni : b₀.jni = b.jni) (todo : List Trace) :
    Passing (b₀.goOn todo).1 (log ++ (evs ++ (b₀.goOn todo).2)) := by
  have hissued : ((Bridge.reached todo).map BridgeEvent.did).filterMap BridgeEvent.issued? =
      issues (didOuts (Bridge.reached todo)) := by
    rw [issues, didOuts, List.filterMap_map, List.filterMap_filterMap]
    refine List.filterMap_congr fun t _ => ?_
    cases t with
    | did o => cases o <;> rfl
    | installed kind => rfl
  have hnone : ∀ {f : BridgeEvent → Option Cmd}, (∀ e ∈ evs, f e = none) → (∀ t, f (.did t) = none) →
      ∀ e ∈ evs ++ (b₀.goOn todo).2, f e = none := by
    intro f hfirst hdid e he
    rcases List.mem_append.mp he with he | he
    · exact hfirst e he
    · obtain ⟨t, _, rfl⟩ := List.mem_map.mp he
      exact hdid t
  refine ⟨?_, ?_, ?_⟩
  · show Lane passOf (.other 0) 0 b₀.jni
    rw [hjni]
    exact h.queue
  · rw [filterMap_append_none (hnone (fun e he => (hevs e he).2.2.1) fun _ => rfl),
      filterMap_append_none (hnone (fun e he => (hevs e he).2.2.2) fun _ => rfl)]
    show _ = _ ++ lane passOf b₀.jni
    rw [hjni]
    exact h.accepted
  · have hdealt := h.dealt
    rw [hpending] at hdealt
    rw [filterMap_append_none (f := BridgeEvent.dealt?)
        (hnone (fun e he => (hevs e he).2.1) fun _ => rfl), List.filterMap_append, hdealt,
      List.filterMap_append, List.filterMap_eq_nil_iff.mpr fun e he => (hevs e he).1]
    show List.filterMap BridgeEvent.dealt? log ++ [] ++
      ([] ++ ((Bridge.reached todo).map BridgeEvent.did).filterMap BridgeEvent.issued?) = _
    rw [List.nil_append, hissued, List.append_nil]
    rfl

/-- The controller has done something. -/
theorem Passing.execute (h : Passing b log) (hpending : b.pending = []) {b₀ : Bridge}
    (hjni : b₀.jni = b.jni) (used : List Target) (i : ControllerInput) :
    Passing (b₀.execute ser used i).1 (log ++ (b₀.execute ser used i).2) :=
  h.goOn hpending [.handled i b₀.later] (List.forall_mem_singleton.mpr ⟨rfl, rfl, rfl, rfl⟩)
    { b₀ with
      state := ((Fsm.controller ser).step (b₀.controller used) i).1.state,
      round := ((Fsm.controller ser).step (b₀.controller used) i).1.round } hjni _

theorem silent_main (e : WorkerEvent Job) : (BridgeEvent.main e).Silent := ⟨rfl, rfl, rfl, rfl⟩

theorem silent_jni (e : WorkerEvent JniJob) : (BridgeEvent.jni e).Silent := ⟨rfl, rfl, rfl, rfl⟩

/-- A task of the main worker runs. -/
theorem Passing.ran (h : Passing b log) (hpending : b.pending = []) (roll : Roll)
    (resumed : Option Resume) (job : Job) :
    Passing (b.run ser roll resumed job).1 (log ++ (b.run ser roll resumed job).2) := by
  have hnothing : ∀ evs : List BridgeEvent, (∀ e ∈ evs, e.Silent) → Passing b (log ++ evs) :=
    fun evs hevs => h.still hevs h.queue rfl rfl
  cases job with
  | start number =>
    unfold Bridge.run
    dsimp only
    have hsilent : ∀ e ∈ [BridgeEvent.handled .start []], e.Silent :=
      List.forall_mem_singleton.mpr ⟨rfl, rfl, rfl, rfl⟩
    split
    · exact hnothing _ hsilent
    · have hissues : issues [.switch (.idle false)] = issues b.pending := by
        rw [hpending]
        rfl
      exact h.still hsilent h.queue rfl hissues
  | event eventId args =>
    unfold Bridge.run
    dsimp only
    split
    · exact h.execute hpending rfl [] _
    · exact hnothing [] (List.forall_mem_nil _)
  | resume =>
    unfold Bridge.run
    cases resumed with
    | none => exact hnothing [] (List.forall_mem_nil _)
    | some i => exact h.execute hpending rfl [] _
  | switch target => exact h.execute hpending rfl [target] .fire

/-- Something that the main thread was to do is not done outside. -/
theorem Passing.dropped (h : Passing b log) {o : Out} {rest : List Out} (isFull : Bool)
    (hpending : b.pending = o :: rest) :
    Passing { b with pending := rest, refusal := refusalOf o } (log ++ dropped o isFull) := by
  have hnone : ∀ {o : Out}, (∀ cmd, o ≠ .issue cmd) →
      Veridie.Dispatch.dropped o isFull = [] ∧ issues (o :: rest) = issues rest := by
    intro o ho
    cases o with
    | issue cmd => exact absurd rfl (ho cmd)
    | _ => exact ⟨rfl, rfl⟩
  by_cases ho : ∀ cmd, o ≠ .issue cmd
  · obtain ⟨hdropped, hissues⟩ := hnone ho
    rw [hdropped]
    exact h.still (List.forall_mem_nil _) h.queue rfl
      (hissues.symm.trans (congrArg issues hpending.symm))
  · obtain ⟨cmd, hcmd⟩ := not_forall.mp ho
    have hcmd := not_not.mp hcmd
    subst hcmd
    have hissued := h.dealt
    rw [hpending] at hissued
    refine ⟨h.queue, ?_, ?_⟩
    · have haccepted := h.accepted
      cases isFull <;>
      · rw [List.filterMap_append, List.filterMap_append]
        exact (List.append_nil _).trans (haccepted.trans
          (congrArg (· ++ lane passOf b.jni) (List.append_nil _).symm))
    · cases isFull <;>
      · rw [List.filterMap_append, List.filterMap_append, List.append_assoc]
        exact (List.append_nil _).trans hissued

/-- **One step.** -/
theorem Passing.step (h : Passing b log) (hrelayed : Relayed ser b log)
    {after : Bridge × List BridgeEvent} (hdoes : Does ser b i after) :
    Passing after.1 (log ++ after.2) := by
  cases hdoes with
  | idle => exact h.still (List.forall_mem_nil _) h.queue rfl rfl
  | tick d =>
    obtain ⟨hlane, hsame⟩ := h.queue.still (i := .tick d) trivial rfl nofun
    exact h.still (List.forall_mem_nil _) hlane hsame rfl
  | main k hk => exact h.still (List.forall_mem_map.mpr fun e _ => silent_main e) h.queue rfl rfl
  | called n job forward _ _ _ _ =>
    exact h.still (List.forall_mem_singleton.mpr ⟨rfl, rfl, rfl, rfl⟩) h.queue rfl rfl
  | jni k hk =>
    obtain ⟨hlane, hsame⟩ := hk.queue h.queue
    exact h.still (List.forall_mem_map.mpr fun e _ => silent_jni e) hlane hsame rfl
  | calledJni n job hjob _ _ =>
    obtain ⟨hlane, hsame⟩ := h.queue.still (i := .schedule (Bridge.caller n) true 0 (.work job))
      (keeps_schedule hjob) (queued_schedule hjob) nofun
    exact h.still (List.forall_mem_singleton.mpr ⟨rfl, rfl, rfl, rfl⟩) hlane hsame rfl
  | ran e es job roll resumed hphase htasks hdue htask =>
    have hpending : b.pending = [] :=
      (hrelayed.idle fun e hrunning => nomatch hphase.symm.trans hrunning).1
    have hstarted : Passing { b with main := b.main.running e es }
        (log ++ [.main (.started e b.main.now)]) :=
      h.still (List.forall_mem_singleton.mpr (silent_main _)) h.queue rfl rfl
    rw [List.append_cons]
    exact hstarted.ran hpending roll resumed job
  | stopped e es _ _ _ _ =>
    exact h.still (List.forall_mem_singleton.mpr (silent_main _)) h.queue rfl rfl
  | requested target rest hpending _ _ =>
    have hissues : issues rest = issues b.pending := by
      rw [hpending]
      rfl
    exact h.still (List.forall_mem_nil _) h.queue rfl hissues
  | invoked cmd number rest hpending _ _ _ hfree =>
    obtain ⟨hlane, hqueue⟩ := h.queue.scheduled (.work (.pass cmd number)) hfree rfl
    refine ⟨hlane, ?_, ?_⟩
    · rw [hqueue, List.filterMap_append, List.filterMap_append, h.accepted, List.append_assoc,
        List.append_assoc]
      rfl
    · have hissued := h.dealt
      rw [hpending] at hissued
      rw [List.filterMap_append, List.filterMap_append, List.append_assoc]
      exact (List.append_nil _).trans hissued
  | dropped o isFull rest hpending _ _ _ => exact h.dropped isFull hpending
  | wentOn hpending _ => exact h.goOn hpending [] (List.forall_mem_nil _) b rfl b.later
  | answered cmd s r hrefusal _ _ _ =>
    have hpending : b.pending = [] := hrelayed.refused (hrefusal ▸ Option.some_ne_none cmd)
    exact h.execute hpending rfl [] (.resume r)
  | ranJni e es job hphase htasks hdue htask =>
    obtain ⟨hlane, hqueue⟩ := h.queue.started e es (.running e) htasks
    have hstarted : startedOf passOf [.started e b.jni.now] = (passOf e.task).toList :=
      (filterMap_cons_toList (fun e : Entry JniJob => passOf e.task) e []).trans (List.append_nil _)
    rw [hstarted, List.append_nil, htask] at hqueue
    cases job with
    | bridgeReady =>
      exact h.still (List.forall_mem_singleton.mpr (silent_jni _)) hlane hqueue.symm rfl
    | unload =>
      exact h.still (List.forall_mem_singleton.mpr (silent_jni _)) hlane hqueue.symm rfl
    | pass cmd number =>
      refine ⟨hlane, ?_, ?_⟩
      · rw [List.filterMap_append, List.filterMap_append, List.append_assoc]
        exact (List.append_nil _).trans (h.accepted.trans (congrArg (_ ++ ·) hqueue))
      · rw [List.filterMap_append, List.filterMap_append, h.dealt]
        exact (List.append_nil _).trans (congrArg (· ++ issues b.pending) (List.append_nil _).symm)
  | stoppedJni e es _ htasks _ htask =>
    obtain ⟨hlane, hqueue⟩ := h.queue.started e es (.running e) htasks
    have hstarted : startedOf passOf [.started e b.jni.now] = [] := by
      show (starts [.started e b.jni.now]).filterMap _ = []
      exact List.filterMap_cons_none (by rw [htask]; rfl)
    rw [hstarted, List.append_nil, List.nil_append] at hqueue
    exact h.still (List.forall_mem_singleton.mpr (silent_jni _)) hlane hqueue.symm rfl

end Commands

/-- **Commands arrive in order**: in every run, the commands that the controller has issued are, in this
    order, those that have been dealt with and those that the main thread has yet to pass on; and of
    those, the ones that an invoker has accepted are, in this order, those that have been passed to
    Java, each once, and those that still wait. -/
theorem commands_in_order (ser : ISerializer) (now : Int) (is : List BridgeInput) :
    ((bridge ser).outs (Bridge.initial now) is).filterMap BridgeEvent.issued? =
      ((bridge ser).outs (Bridge.initial now) is).filterMap BridgeEvent.dealt? ++
        issues ((bridge ser).exec (Bridge.initial now) is).pending ∧
    ((bridge ser).outs (Bridge.initial now) is).filterMap BridgeEvent.invoked? =
      ((bridge ser).outs (Bridge.initial now) is).filterMap BridgeEvent.passed? ++
        lane passOf ((bridge ser).exec (Bridge.initial now) is).jni := by
  have h : Relayed ser ((bridge ser).exec (Bridge.initial now) is)
        ((bridge ser).outs (Bridge.initial now) is) ∧
      Passing ((bridge ser).exec (Bridge.initial now) is)
        ((bridge ser).outs (Bridge.initial now) is) :=
    Machine.log_invariant
      (P := fun (b : Bridge) (log : List BridgeEvent) => Relayed ser b log ∧ Passing b log) (l := [])
      (fun b log i h => ⟨h.1.step (bridge_does ser b i), h.2.step h.1 (bridge_does ser b i)⟩)
      ⟨Relayed.initial ser now, Passing.initial now⟩ is
  exact ⟨h.2.dealt, h.2.accepted⟩

/-- A game with one peer; the manager's invokers have been replaced. -/
def playingAlone : Bridge :=
  { Bridge.initial 0 with
    manager := some 0, invokers := some 1, made := 2
    state := some (.playing (StatePlaying.construct (KeySet.empty.insert ⟨"B".toList, "b".toList⟩)
      "a".toList "a".toList)) }

/-- A request is cast, and the commands of its handler are refused. -/
def castRefused : List BridgeInput :=
  [.sendEvent 1 15 ["D6".toList, "1".toList], .lock (.other 1), .take (fun _ => 0) none, .perform,
    .answer (.playing (.show 0 .interopFailure)), .perform, .perform, .perform, .lock .worker,
    .perform, .perform]

-- the coroutine of `ShowRequest` stops the game before the request is sent
example : ((bridge (xmlSerializer walkAsIs)).outs playingAlone castRefused).filterMap
    BridgeEvent.dealt? = [.showRequest "D6".toList 1 0 "You".toList, .resetConnections, .resetGame,
      .sendMessage "<Request size=\"1\" type=\"D6\" />".toList "b".toList] := by
  decide +kernel

end Veridie.Dispatch
