/-
  File:      Veridie/Dispatch/Relay.lean
  Subject:   What the two workers make of the calls between Java and the controller, however the
             threads interleave.

  * `Does` -- everything that a step can do;
  * `Bridge.abstract` -- the controller of `Fsm.Controller`, whose switches are a queue;
  * `reached_requested` -- a switch never stands behind a command that is awaited;
  * `Relayed`, `relay_refines` -- that controller is what runs on the main worker.
-/
import Veridie.Dispatch.Bridge
import Veridie.Fsm.Window

namespace Veridie.Dispatch

open Veridie.Lib Veridie.Dice Veridie.Fsm
open Veridie.Sign (Cmd)

/-! ## 1. Steps -/

/-- A coroutine of `SwitchToState`. -/
def switchOf : Task Job → Option Target
  | .work (.switch target) => some target
  | _ => none

/-- A task that passes a command. -/
def passOf : Task JniJob → Option Cmd
  | .work (.pass cmd _) => some cmd
  | _ => none

/-- The steps of the main worker besides those that take a task or request a switch, and the calls of
    Java. -/
inductive MainQuiet (b : Bridge) : WorkerInput Job → Prop where
  | waitFor (delay : Int) : MainQuiet b (.schedule .worker true delay (.work .resume))
  | lock (t : Thread) : MainQuiet b (.lock t)
  | finish (exception : Option Str) (hpending : b.pending = []) (hlater : b.later = [])
      (hrefusal : b.refusal = none) : MainQuiet b (.finish exception)

/-- Those of the JNI worker besides those that take a task or accept a command, and the calls of
    Java. -/
inductive JniQuiet : WorkerInput JniJob → Prop where
  | lock (t : Thread) : JniQuiet (.lock t)
  | finish (exception : Option Str) : JniQuiet (.finish exception)

/-- What becomes of something that the main thread was to do when nothing is done outside: a command
    is refused or finds no number. -/
def dropped : Out → Bool → List BridgeEvent
  | .issue cmd, true => [.full cmd]
  | .issue cmd, false => [.refused cmd]
  | _, _ => []

/-- The command whose coroutine goes on then. -/
def refusalOf : Out → Option Cmd
  | .issue cmd => if cmd.awaited then some cmd else none
  | _ => none

/-- Everything that a step can do. -/
inductive Does (ser : ISerializer) (b : Bridge) (i : BridgeInput) :
    Bridge × List BridgeEvent → Prop where
  | idle : Does ser b i (b, [])
  | tick (d : Nat) :
      Does ser b i ({ b with
        main := (workerMachine.step b.main (.tick d)).1,
        jni := (workerMachine.step b.jni (.tick d)).1 }, [])
  | main (k : WorkerInput Job) (hk : MainQuiet b k) :
      Does ser b i ({ b with main := (workerMachine.step b.main k).1 },
        (workerMachine.step b.main k).2.map .main)
  | called (n : Nat) (job : Job) (forward : Option Nat) (hjob : switchOf (.work job) = none)
      (hstart : ∀ number, job = .start number → b.forward = some number)
      (hforward : forward = b.forward ∨ forward = none) (hfree : b.main.free (.other n) = true) :
      Does ser b i ({ b with
        main := (workerMachine.step b.main (.schedule (.other n) true 0 (.work job))).1,
        forward := forward }, [.called n job])
  | jni (k : WorkerInput JniJob) (hk : JniQuiet k) :
      Does ser b i ({ b with jni := (workerMachine.step b.jni k).1 },
        (workerMachine.step b.jni k).2.map .jni)
  | calledJni (n : Nat) (job : JniJob) (hjob : passOf (.work job) = none)
      (hunload : job = .unload → ∃ n, i = .unload n)
      (hfree : b.jni.free (Bridge.caller n) = true) :
      Does ser b i ({ b with
        jni := (workerMachine.step b.jni (.schedule (Bridge.caller n) true 0 (.work job))).1 },
        [.calledJni n job])
  | ran (e : Entry Job) (es : List (Entry Job)) (job : Job) (roll : Roll)
      (resumed : Option Resume) (hphase : b.main.phase = .waiting) (htasks : b.main.tasks = e :: es)
      (hdue : e.timeToFire ≤ b.main.now) (htask : e.task = .work job) :
      Does ser b i ((({ b with main := b.main.running e es } : Bridge).run ser roll resumed job).1,
        .main (.started e b.main.now) ::
          (({ b with main := b.main.running e es } : Bridge).run ser roll resumed job).2)
  | stopped (e : Entry Job) (es : List (Entry Job)) (hphase : b.main.phase = .waiting)
      (htasks : b.main.tasks = e :: es) (hdue : e.timeToFire ≤ b.main.now) (htask : e.task = .stop) :
      Does ser b i ({ b with main := b.main.running e es }, [.main (.started e b.main.now)])
  | requested (target : Target) (rest : List Out) (hpending : b.pending = .switch target :: rest)
      (hrefusal : b.refusal = none) (hfree : b.mainFree = true) :
      Does ser b i ({ b with
        main := (workerMachine.step b.main (.schedule .worker true 0 (.work (.switch target)))).1,
        pending := rest }, [])
  | invoked (cmd : Cmd) (bridge : Nat) (rest : List Out) (hpending : b.pending = .issue cmd :: rest)
      (hrefusal : b.refusal = none) (hmanager : b.manager = some bridge)
      (halive : b.alive (invokerOf cmd) bridge = true) (hfree : b.jni.free (.other 0) = true) :
      Does ser b i ({ b with
        jni := (workerMachine.step b.jni (.schedule (.other 0) true 0 (.work (.pass cmd bridge)))).1,
        pending := rest }, [.invoked cmd])
  | dropped (o : Out) (isFull : Bool) (rest : List Out) (hpending : b.pending = o :: rest)
      (hrefusal : b.refusal = none) (ho : ∀ target, o ≠ .switch target)
      (hgone : ∀ cmd bridge, o = .issue cmd → isFull = false → b.manager = some bridge →
        b.alive (invokerOf cmd) bridge = false) :
      Does ser b i ({ b with pending := rest, refusal := refusalOf o }, dropped o isFull)
  | wentOn (hpending : b.pending = []) (hrefusal : b.refusal = none) :
      Does ser b i (b.goOn b.later)
  | answered (cmd : Cmd) (s : FsmState) (r : Resume) (hrefusal : b.refusal = some cmd)
      (hstate : b.state = some s) (hawaits : s.Awaits cmd r)
      (hanswer : r.answer = some .interopFailure) : Does ser b i (b.execute ser [] (.resume r))
  | ranJni (e : Entry JniJob) (es : List (Entry JniJob)) (job : JniJob)
      (hphase : b.jni.phase = .waiting) (htasks : b.jni.tasks = e :: es)
      (hdue : e.timeToFire ≤ b.jni.now) (htask : e.task = .work job) :
      Does ser b i ((({ b with jni := b.jni.running e es, work := some e.task } : Bridge).runJni job).1,
        .jni (.started e b.jni.now) ::
          (({ b with jni := b.jni.running e es, work := some e.task } : Bridge).runJni job).2)
  | stoppedJni (e : Entry JniJob) (es : List (Entry JniJob)) (hphase : b.jni.phase = .waiting)
      (htasks : b.jni.tasks = e :: es) (hdue : e.timeToFire ≤ b.jni.now) (htask : e.task = .stop) :
      Does ser b i ({ b with jni := b.jni.running e es, work := some e.task },
        [.jni (.started e b.jni.now)])

section Does

variable {ser : ISerializer} {b : Bridge} {i : BridgeInput}

theorem take_does (roll : Roll) (resumed : Option Resume) :
    Does ser b i (b.take ser roll resumed) := by
  unfold Bridge.take
  rcases getNextTask_cases b.main with hnone | ⟨e, es, hphase, htasks, hdue, htake⟩
  · rw [hnone]
    exact .idle
  · rw [htake]
    cases htask : e.task with
    | work job =>
      have hran : Does ser b i _ := .ran e es job roll resumed hphase htasks hdue htask
      obtain ⟨timeToFire, num, task⟩ := e
      cases htask
      exact hran
    | stop =>
      have hstopped : Does ser b i _ := .stopped e es hphase htasks hdue htask
      obtain ⟨timeToFire, num, task⟩ := e
      cases htask
      exact hstopped

theorem takeJni_does : Does ser b i b.takeJni := by
  unfold Bridge.takeJni
  rcases getNextTask_cases b.jni with hnone | ⟨e, es, hphase, htasks, hdue, htake⟩
  · rw [hnone]
    exact .idle
  · rw [htake]
    cases htask : e.task with
    | work job =>
      have hran : Does ser b i _ := .ranJni e es job hphase htasks hdue htask
      obtain ⟨timeToFire, num, task⟩ := e
      cases htask
      exact hran
    | stop =>
      have hstopped : Does ser b i _ := .stoppedJni e es hphase htasks hdue htask
      obtain ⟨timeToFire, num, task⟩ := e
      cases htask
      exact hstopped

theorem mainFree_free (h : b.mainFree = true) :
    b.main.free .worker = true ∧ b.jni.free (.other 0) = true := by
  obtain ⟨hmain, hjni⟩ := (Bool.and_eq_true _ _ ▸ h :)
  refine ⟨hmain, ?_⟩
  rw [Worker.free, hjni]
  rfl

/-- A call shows nothing. -/
theorem schedule_events {α : Type} (w : Worker α) (t : Thread) (blocking : Bool) (delay : Int)
    (task : Task α) : (w.schedule t blocking delay task).2 = [] := by
  unfold Worker.schedule
  split <;> rfl

theorem perform_does : Does ser b i b.perform := by
  unfold Bridge.perform
  by_cases hboth : (b.mainFree && b.refusal.isNone) = true
  · rw [if_pos hboth]
    obtain ⟨hfree, hnone⟩ := (Bool.and_eq_true _ _ ▸ hboth :)
    have hrefusal : b.refusal = none := Option.isNone_iff_eq_none.mp hnone
    cases hpending : b.pending with
    | nil => exact .wentOn hpending hrefusal
    | cons o rest =>
      cases o with
      | switch target =>
        have hevents := schedule_events b.main .worker true 0 (.work (.switch target))
        dsimp only [Bridge.onMain]
        rw [hevents]
        exact .requested target rest hpending hrefusal hfree
      | issue cmd =>
        dsimp only
        split
        · rename_i hmanager
          exact .dropped (.issue cmd) false rest hpending hrefusal (fun _ h => nomatch h)
            fun cmd' bridge _ _ hsome => absurd (hmanager.symm.trans hsome) (Option.some_ne_none _).symm
        · rename_i bridge hmanager
          by_cases halive : b.alive (invokerOf cmd) bridge = true
          · have hevents := schedule_events b.jni (.other 0) true 0 (.work (.pass cmd bridge))
            rw [if_pos halive]
            dsimp only [Bridge.onJni]
            rw [hevents]
            exact .invoked cmd bridge rest hpending hrefusal hmanager halive (mainFree_free hfree).2
          · rw [if_neg halive]
            refine .dropped (.issue cmd) false rest hpending hrefusal (fun _ h => nomatch h) ?_
            intro cmd' bridge' hcmd _ hsome
            cases hcmd
            cases hmanager.symm.trans hsome
            exact Bool.eq_false_iff.mpr halive
      | _ =>
        -- a mark, or the pool: nothing is refused
        have hsame : ({ b with pending := rest } : Bridge) =
            { b with pending := rest, refusal := none } := by rw [← hrefusal]
        dsimp only
        rw [hsame]
        exact .dropped _ false rest hpending hrefusal (fun _ h => nomatch h) fun _ _ h => nomatch h
  · rw [if_neg hboth]
    exact .idle

theorem storageFull_does : Does ser b i b.storageFull := by
  unfold Bridge.storageFull
  by_cases hboth : (b.mainFree && b.refusal.isNone) = true
  · rw [if_pos hboth]
    obtain ⟨_, hnone⟩ := (Bool.and_eq_true _ _ ▸ hboth :)
    cases hpending : b.pending with
    | nil => exact .idle
    | cons o rest =>
      cases o with
      | issue cmd =>
        exact .dropped (.issue cmd) true rest hpending (Option.isNone_iff_eq_none.mp hnone)
          (fun _ h => nomatch h) fun _ _ _ h => nomatch h
      | _ => exact .idle
  · rw [if_neg hboth]
    exact .idle

theorem answer_does (r : Resume) : Does ser b i (b.answer ser r) := by
  unfold Bridge.answer
  split
  · rename_i cmd s hrefusal hstate
    by_cases hboth : (s.awaits cmd r && decide (r.answer = some .interopFailure)) = true
    · rw [if_pos hboth]
      obtain ⟨hawaits, hanswer⟩ := (Bool.and_eq_true _ _ ▸ hboth :)
      exact .answered cmd s r hrefusal hstate (FsmState.awaits_iff.mp hawaits)
        (of_decide_eq_true hanswer)
    · rw [if_neg hboth]
      exact .idle
  · exact .idle

theorem call_does (n : Nat) {job : Job} (forward : Option Nat) (hjob : switchOf (.work job) = none)
    (hstart : ∀ number, job = .start number → b.forward = some number)
    (hforward : forward = b.forward ∨ forward = none) (hfree : b.main.free (.other n) = true) :
    Does ser b i (({ b with forward := forward } : Bridge).call n job) := by
  have hevents := schedule_events b.main (.other n) true 0 (.work job)
  unfold Bridge.call
  rw [if_pos hfree]
  dsimp only [Bridge.onMain]
  rw [hevents]
  exact .called n job forward hjob hstart hforward hfree

theorem exec_does (n : Nat) {job : Job} (hjob : switchOf (.work job) = none)
    (hstart : ∀ number, job ≠ .start number) : Does ser b i (b.exec n job) := by
  unfold Bridge.exec
  by_cases hcalls : b.callsMain n = true
  · rw [if_pos hcalls]
    by_cases hfree : b.main.free (.other n) = true
    · exact call_does n b.forward hjob (fun number h => absurd h (hstart number)) (Or.inl rfl) hfree
    · unfold Bridge.call
      rw [if_neg hfree]
      exact .idle
  · rw [if_neg hcalls]
    exact .idle

theorem execJni_does (n : Nat) {job : JniJob} (hjob : passOf (.work job) = none)
    (hunload : job = .unload → ∃ n, i = .unload n) : Does ser b i (b.execJni n job) := by
  unfold Bridge.execJni
  by_cases hboth : ((b.main.callOf (.other n)).isNone && b.jni.free (Bridge.caller n)) = true
  · rw [if_pos hboth]
    obtain ⟨_, hfree⟩ := (Bool.and_eq_true _ _ ▸ hboth :)
    have hevents := schedule_events b.jni (Bridge.caller n) true 0 (.work job)
    dsimp only [Bridge.onJni]
    rw [hevents]
    exact .calledJni n job hjob hunload hfree
  · rw [if_neg hboth]
    exact .idle

theorem waitFor_does (delay : Int) : Does ser b i (b.waitFor delay) := by
  unfold Bridge.waitFor
  by_cases hfree : b.mainFree = true
  · rw [if_pos hfree]
    exact .main (.schedule .worker true (max 0 delay) (.work .resume)) (.waitFor _)
  · rw [if_neg hfree]
    exact .idle

theorem forwardStart_does : Does ser b i b.forwardStart := by
  unfold Bridge.forwardStart
  cases hforward : b.forward with
  | none => exact .idle
  | some number =>
    dsimp only
    by_cases hboth : (b.callsMain 0 && b.main.free (.other 0)) = true
    · rw [if_pos hboth]
      obtain ⟨_, hfree⟩ := (Bool.and_eq_true _ _ ▸ hboth :)
      refine call_does 0 none rfl (fun number' h => ?_) (Or.inr rfl) hfree
      cases h
      exact hforward
    · rw [if_neg hboth]
      exact .idle

/-- **Every step is one of these.** -/
theorem bridge_does (ser : ISerializer) (b : Bridge) (i : BridgeInput) :
    Does ser b i ((bridge ser).step b i) := by
  cases i with
  | tick d => exact .tick d
  | sendEvent n eventId args => exact exec_does n rfl nofun
  | sendResponse n => exact exec_does n rfl nofun
  | bridgeReady n => exact execJni_does n rfl nofun
  | unload n => exact execJni_does n rfl fun _ => ⟨n, rfl⟩
  | lock t => exact .main (.lock t) (.lock t)
  | lockJni t => exact .jni (.lock t) (.lock t)
  | take roll resumed => exact take_does roll resumed
  | perform => exact perform_does
  | storageFull => exact storageFull_does
  | answer r => exact answer_does r
  | waitFor delay => exact waitFor_does delay
  | finish exception =>
    simp only [bridge, Bridge.finish]
    by_cases hend : b.pending = [] ∧ b.later = [] ∧ b.refusal = none ∧ b.jni.callOf (.other 0) = none
    · rw [if_pos hend]
      exact .main (.finish exception) (.finish exception hend.1 hend.2.1 hend.2.2.1)
    · rw [if_neg hend]
      exact .idle
  | takeJni => exact takeJni_does
  | forwardStart => exact forwardStart_does
  | finishJni exception =>
    simp only [bridge, Bridge.finishJni]
    by_cases hend : b.forward = none ∧ b.main.callOf (.other 0) = none
    · rw [if_pos hend]
      exact .jni (.finish exception) (.finish exception)
    · rw [if_neg hend]
      exact .idle

end Does

/-! ## 2. The controller -/

def BridgeEvent.handled? : BridgeEvent → Option ControllerInput
  | .handled i _ => some i
  | _ => none

def BridgeEvent.did? : BridgeEvent → Option Trace
  | .did t => some t
  | _ => none

/-- What the controller is made to do in a run. -/
def handledInputs (log : List BridgeEvent) : List ControllerInput :=
  log.filterMap BridgeEvent.handled?

/-- What it does. -/
def doneBy (log : List BridgeEvent) : List Trace := log.filterMap BridgeEvent.did?

/-- Whatever the controller has been made to do had nothing behind it in its task. -/
def Straight (log : List BridgeEvent) : Prop :=
  ∀ i behind, .handled i behind ∈ log → behind = []

/-- The controller of `Fsm.Controller`: its switches are the coroutines that wait on the main worker,
    and those that the main thread is still to start. -/
def Bridge.abstract (b : Bridge) : Controller :=
  b.controller (lane switchOf b.main ++ requested b.pending)

section Reached

variable {todo done later : List Trace}

theorem didOuts_append (done later : List Trace) :
    didOuts (done ++ later) = didOuts done ++ didOuts later := List.filterMap_append

theorem reached_behind (todo : List Trace) : Bridge.reached todo ++ Bridge.behind todo = todo :=
  List.take_append_drop _ todo

/-- Nothing of it is awaited, so the thread does not stop there. -/
theorem behind_append (h : ∀ t ∈ done, Bridge.awaits t = false) :
    Bridge.behind (done ++ later) = Bridge.behind later := by
  have hlength : done.findIdx Bridge.awaits = done.length := List.findIdx_eq_length.mpr h
  unfold Bridge.behind
  rw [List.findIdx_append, hlength, if_neg (Nat.lt_irrefl _), Nat.add_right_comm, Nat.add_comm,
    ← List.drop_drop, List.drop_left]

theorem awaits_of_awaited (h : awaited (didOuts done) = []) : ∀ t ∈ done, Bridge.awaits t = false := by
  intro t ht
  cases t with
  | installed kind => rfl
  | did o =>
    cases o with
    | issue cmd =>
      by_contra hne
      have hin : cmd ∈ awaited (didOuts done) :=
        mem_awaited.mpr ⟨mem_didOuts.mpr ht, Bool.not_eq_false _ ▸ hne⟩
      rw [h] at hin
      exact List.not_mem_nil hin
    | _ => rfl

/-- **A switch never stands behind a command that is awaited**: the thread reaches every switch. -/
theorem reached_requested (hdone : requested (didOuts done) = [] ∨ awaited (didOuts done) = [])
    (hlater : requested (didOuts later) = []) :
    requested (didOuts (Bridge.reached (done ++ later))) = requested (didOuts done) ∧
      requested (didOuts (Bridge.behind (done ++ later))) = [] := by
  have hsplit : ∀ todo, requested (didOuts (Bridge.reached todo)) ++
      requested (didOuts (Bridge.behind todo)) = requested (didOuts todo) := fun todo => by
    rw [← requested_append, ← didOuts_append, reached_behind]
  have hall : requested (didOuts (done ++ later)) = requested (didOuts done) := by
    rw [didOuts_append, requested_append, hlater, List.append_nil]
  have hbehind : requested (didOuts (Bridge.behind (done ++ later))) = [] := by
    rcases hdone with hnone | hnone
    · exact (List.append_eq_nil_iff.mp ((hsplit _).trans (hall.trans hnone))).2
    · rw [behind_append (awaits_of_awaited hnone)]
      exact (List.append_eq_nil_iff.mp ((hsplit later).trans hlater)).2
  refine ⟨?_, hbehind⟩
  have hreached := hsplit (done ++ later)
  rwa [hbehind, List.append_nil, hall] at hreached

end Reached

section Steps

variable {ser : ISerializer} {b : Bridge}

theorem requested_destroy (s : FsmState) : requested s.destroy = [] := by
  refine List.filterMap_eq_nil_iff.mpr fun o ho => ?_
  cases o with
  | switch target => exact absurd ho (destroy_requests s)
  | _ => rfl

theorem requested_destroyed (c : Controller) : requested c.destroyed = [] := by
  unfold Controller.destroyed
  cases c.state with
  | none => rfl
  | some s => exact requested_destroy s

/-- The inputs of the controller with the switches that they use up. -/
inductive Uses : ControllerInput → List Target → Prop where
  | event (e : Event) (roll : Roll) : Uses (.event e roll) []
  | resume (i : Resume) : Uses (.resume i) []
  | fire (target : Target) : Uses .fire [target]

/-- What an event or an answer makes of the controller, whatever switches wait. -/
theorem handle_switches (ser : ISerializer) (b : Bridge) (q : List Target) (i : ControllerInput) :
    (b.controller q).handle ser i =
      (⟨b.manager.isSome, ((b.controller []).handle ser i).1.state,
          q ++ requested (didOuts ((b.controller []).handle ser i).2),
          ((b.controller []).handle ser i).1.round⟩,
        ((b.controller []).handle ser i).2) := by
  unfold Controller.handle Bridge.controller
  cases b.state with
  | none => exact congrArg₂ Prod.mk (congrArg (Controller.mk _ _ · _) (List.append_nil q).symm) rfl
  | some s =>
    dsimp only
    rw [didOuts_map]
    rfl

/-- A switch that is executed requests no other one. -/
theorem fire_requested (ser : ISerializer) (c : Controller) : requested (didOuts (c.fire ser).2) = [] := by
  have hgone : ∀ tail : List Trace, requested (didOuts tail) = [] →
      requested (didOuts (c.destroyed.map Trace.did ++ tail)) = [] := by
    intro tail htail
    rw [didOuts_append, didOuts_map, requested_append, requested_destroyed, htail]
    rfl
  unfold Controller.fire
  split
  · rfl
  · rename_i t rest _
    cases hr : t.construct ser c.round with
    | none =>
      refine hgone _ ?_
      split <;> rfl
    | some r =>
      dsimp only
      split
      · rfl
      · rw [List.append_assoc]
        refine hgone _ ?_
        rw [didOuts_append, didOuts_map, requested_append, (requested_construct hr).1]
        rfl

theorem fire_switches_eq (ser : ISerializer) (b : Bridge) (target : Target) (q : List Target) :
    (b.controller (target :: q)).fire ser =
      (⟨b.manager.isSome, ((b.controller [target]).fire ser).1.state,
          q ++ requested (didOuts ((b.controller [target]).fire ser).2),
          ((b.controller [target]).fire ser).1.round⟩,
        ((b.controller [target]).fire ser).2) := by
  rw [fire_requested, List.append_nil]
  unfold Controller.fire Bridge.controller
  dsimp only
  cases hr : target.construct ser b.round with
  | none => rfl
  | some r =>
    dsimp only
    by_cases hkind : b.state.map FsmState.kind = some r.1.kind
    · rw [if_pos hkind, if_pos hkind]
    · rw [if_neg hkind, if_neg hkind]
      have hnone := (requested_construct hr).1
      refine congrArg₂ Prod.mk ?_ rfl
      show Controller.mk _ _ (q ++ requested r.2.2) _ = Controller.mk _ _ q _
      rw [hnone, List.append_nil]
      rfl

/-- **A handler that requests a switch awaits no command.** -/
theorem step_settles (ser : ISerializer) (b : Bridge) {used : List Target} {i : ControllerInput}
    (huses : Uses i used) :
    requested (didOuts ((Fsm.controller ser).step (b.controller used) i).2) = [] ∨
      awaited (didOuts ((Fsm.controller ser).step (b.controller used) i).2) = [] := by
  have hhandle : ∀ i, requested (didOuts ((b.controller []).handle ser i).2) = [] ∨
      awaited (didOuts ((b.controller []).handle ser i).2) = [] := by
    intro i
    unfold Controller.handle
    split
    · exact Or.inl rfl
    · rename_i s _
      rw [didOuts_map]
      rcases handle_requests ser b.round s i with hnone | ⟨_, _, _, hnone⟩
      · exact Or.inl hnone
      · exact Or.inr hnone
  cases huses with
  | event e roll => exact hhandle (.event e roll)
  | resume i => exact hhandle (.resume i)
  | fire target => exact Or.inl (fire_requested ser _)

/-- The step of the controller, whatever switches wait. -/
theorem step_switches_eq (ser : ISerializer) (b : Bridge) {used : List Target} {i : ControllerInput}
    (huses : Uses i used) (q : List Target) :
    (Fsm.controller ser).step (b.controller (used ++ q)) i =
      (⟨b.manager.isSome, ((Fsm.controller ser).step (b.controller used) i).1.state,
          q ++ requested (didOuts ((Fsm.controller ser).step (b.controller used) i).2),
          ((Fsm.controller ser).step (b.controller used) i).1.round⟩,
        ((Fsm.controller ser).step (b.controller used) i).2) := by
  cases huses with
  | event e roll => exact handle_switches ser b q (.event e roll)
  | resume i => exact handle_switches ser b q (.resume i)
  | fire target => exact fire_switches_eq ser b target q

/-- **What the main thread executes is a step of the controller**, also before something else that
    stands in its task. -/
theorem execute_abstract {used : List Target} {i : ControllerInput} (huses : Uses i used)
    (hlater : requested (didOuts b.later) = []) :
    ((Fsm.controller ser).step (b.controller (used ++ lane switchOf b.main)) i).1 =
        (b.execute ser used i).1.abstract ∧
      requested (didOuts (b.execute ser used i).1.later) = [] := by
  obtain ⟨hreached, hbehind⟩ := reached_requested (step_settles ser b huses) hlater
  refine ⟨?_, hbehind⟩
  rw [step_switches_eq ser b huses, ← hreached]
  rfl

theorem handledInputs_map (ts : List Trace) : handledInputs (ts.map .did) = [] := by
  refine List.filterMap_eq_nil_iff.mpr fun e he => ?_
  obtain ⟨t, _, rfl⟩ := List.mem_map.mp he
  rfl

theorem execute_handled (used : List Target) (i : ControllerInput) :
    handledInputs (b.execute ser used i).2 = [i] := congrArg (i :: ·) (handledInputs_map _)

theorem doneBy_map (ts : List Trace) : doneBy (ts.map .did) = ts := by
  unfold doneBy
  rw [List.filterMap_map]
  exact List.filterMap_some

/-- What is done then, and what stands behind that. -/
theorem execute_done (used : List Target) (i : ControllerInput) :
    doneBy (b.execute ser used i).2 ++ (b.execute ser used i).1.later =
      ((Fsm.controller ser).step (b.controller used) i).2 ++ b.later := by
  have hdone : doneBy (b.execute ser used i).2 =
      Bridge.reached (((Fsm.controller ser).step (b.controller used) i).2 ++ b.later) := doneBy_map _
  rw [hdone]
  exact reached_behind _

end Steps

/-! ## 3. Runs -/

/-- Behind a command that is awaited nothing is to be done. -/
def AwaitsLast (outs : List Out) : Prop :=
  ∀ pre cmd rest, outs = pre ++ .issue cmd :: rest → cmd.awaited = true → rest = []

theorem awaitsLast_of_none {outs : List Out} (h : ∀ cmd, .issue cmd ∉ outs) : AwaitsLast outs := by
  intro pre cmd rest heq
  exact absurd (heq ▸ List.mem_append_right _ List.mem_cons_self) (h cmd)

theorem AwaitsLast.tail {o : Out} {outs : List Out} (h : AwaitsLast (o :: outs)) : AwaitsLast outs :=
  fun pre cmd rest heq => h (o :: pre) cmd rest (congrArg (o :: ·) heq)

/-- The thread stops at the first one. -/
theorem reached_awaitsLast (todo : List Trace) : AwaitsLast (didOuts (Bridge.reached todo)) := by
  intro pre cmd rest heq hawaited
  obtain ⟨a, t, hreached, rfl, htail⟩ := List.filterMap_eq_append_iff.mp heq
  obtain ⟨c, x, b, rfl, hskip, hx, rfl⟩ := List.filterMap_eq_cons_iff.mp htail
  have hissue : x = .did (.issue cmd) := by
    split at hx
    · cases hx
      rfl
    · cases hx
  subst hissue
  have hsplit : todo = (a ++ c) ++ .did (.issue cmd) :: (b ++ Bridge.behind todo) := by
    calc todo = Bridge.reached todo ++ Bridge.behind todo := (reached_behind todo).symm
      _ = _ := by
        rw [hreached]
        simp only [List.append_assoc, List.cons_append]
  have hindex : todo.findIdx Bridge.awaits ≤ (a ++ c).length := by
    rw [hsplit, List.findIdx_append]
    split
    · omega
    · rw [List.findIdx_cons, show Bridge.awaits (.did (.issue cmd)) = true from hawaited]
      exact le_of_eq (Nat.zero_add _)
  have hlength : (Bridge.reached todo).length ≤ (a ++ c).length + 1 :=
    (List.length_take_le _ todo).trans (Nat.succ_le_succ hindex)
  rw [hreached] at hlength
  have hb : b.length = 0 := by
    simp only [List.length_append, List.length_cons] at hlength
    omega
  rw [List.eq_nil_of_length_eq_zero hb]
  rfl

/-- The controller follows, and nothing is left to do when no task is running. -/
structure Relayed (ser : ISerializer) (b : Bridge) (log : List BridgeEvent) : Prop where
  same : b.abstract = (Fsm.controller ser).exec Controller.initial (handledInputs log)
  all : (doneBy log ++ b.later).Perm
    ((Fsm.controller ser).outs Controller.initial (handledInputs log))
  inOrder : Straight log → doneBy log ++ b.later =
    (Fsm.controller ser).outs Controller.initial (handledInputs log)
  queue : Lane switchOf .worker 0 b.main
  idle : (∀ e, b.main.phase ≠ .running e) → b.pending = [] ∧ b.later = [] ∧ b.refusal = none
  settled : requested (didOuts b.later) = []
  last : AwaitsLast b.pending
  refused : b.refusal ≠ none → b.pending = []

section Refinement

variable {ser : ISerializer} {b b' : Bridge} {log evs : List BridgeEvent} {i : BridgeInput}

theorem handledInputs_append (log evs : List BridgeEvent) :
    handledInputs (log ++ evs) = handledInputs log ++ handledInputs evs := List.filterMap_append

theorem doneBy_append (log evs : List BridgeEvent) :
    doneBy (log ++ evs) = doneBy log ++ doneBy evs := List.filterMap_append

theorem Straight.left (h : Straight (log ++ evs)) : Straight log :=
  fun i behind hin => h i behind (List.mem_append_left _ hin)

/-- A step of the main worker that neither takes a task nor requests a switch. -/
theorem MainQuiet.queue {k : WorkerInput Job} (hk : MainQuiet b k)
    (h : Lane switchOf .worker 0 b.main) :
    Lane switchOf .worker 0 (workerMachine.step b.main k).1 ∧
      lane switchOf (workerMachine.step b.main k).1 = lane switchOf b.main := by
  cases hk with
  | waitFor delay => exact h.still (keeps_schedule rfl) (queued_schedule rfl) nofun
  | lock t => exact h.still trivial rfl nofun
  | finish exception _ _ _ => exact h.still trivial rfl nofun

/-- A call leaves the task alone. -/
theorem schedule_phase {α : Type} (w : Worker α) (t : Thread) (blocking : Bool) (delay : Int)
    (task : Task α) : (workerMachine.step w (.schedule t blocking delay task)).1.phase = w.phase := by
  simp only [workerMachine, Worker.schedule]
  split <;> rfl

/-- The thread of the main worker is in its task as long as it has something to do. -/
theorem MainQuiet.idle {k : WorkerInput Job} (hk : MainQuiet b k)
    (h : (∀ e, b.main.phase ≠ .running e) → b.pending = [] ∧ b.later = [] ∧ b.refusal = none)
    (hphase : ∀ e, (workerMachine.step b.main k).1.phase ≠ .running e) :
    b.pending = [] ∧ b.later = [] ∧ b.refusal = none := by
  cases hk with
  | waitFor delay =>
    rw [schedule_phase] at hphase
    exact h hphase
  | lock t =>
    refine h fun e hrunning => hphase e ?_
    simp only [workerMachine, Worker.lock]
    cases b.main.callOf t with
    | none => exact hrunning
    | some c =>
      dsimp only
      split
      · exact hrunning
      · split <;> exact hrunning
  | finish exception hpending hlater hrefusal => exact ⟨hpending, hlater, hrefusal⟩

/-- A step in which the controller does nothing. -/
theorem Relayed.still (h : Relayed ser b log) (hevs : ∀ e ∈ evs, e.handled? = none ∧ e.did? = none)
    (hsame : b'.abstract = b.abstract) (hlater : b'.later = b.later)
    (hqueue : Lane switchOf .worker 0 b'.main)
    (hidle : (∀ e, b'.main.phase ≠ .running e) →
      b'.pending = [] ∧ b'.later = [] ∧ b'.refusal = none)
    (hlast : AwaitsLast b'.pending) (hrefused : b'.refusal ≠ none → b'.pending = []) :
    Relayed ser b' (log ++ evs) := by
  have hhandled : handledInputs (log ++ evs) = handledInputs log := by
    have hnone : handledInputs evs = [] := List.filterMap_eq_nil_iff.mpr fun e he => (hevs e he).1
    rw [handledInputs_append, hnone, List.append_nil]
  have hdone : doneBy (log ++ evs) = doneBy log := by
    have hnone : doneBy evs = [] := List.filterMap_eq_nil_iff.mpr fun e he => (hevs e he).2
    rw [doneBy_append, hnone, List.append_nil]
  refine ⟨?_, ?_, fun hstraight => ?_, hqueue, hidle, hlater ▸ h.settled, hlast, hrefused⟩
  · rw [hsame, hhandled]
    exact h.same
  · rw [hdone, hlater, hhandled]
    exact h.all
  · rw [hdone, hlater, hhandled]
    exact h.inOrder hstraight.left

/-- The controller executes something: in a task that begins, or before what stands in the task. -/
theorem Relayed.execute (h : Relayed ser b log) {used : List Target} {i : ControllerInput}
    (huses : Uses i used) {b₀ : Bridge} (hlater : b₀.later = b.later)
    (hsame : b₀.controller (used ++ lane switchOf b₀.main) = b.abstract)
    (hqueue : Lane switchOf .worker 0 b₀.main) {e : Entry Job} (hrunning : b₀.main.phase = .running e) :
    Relayed ser (b₀.execute ser used i).1 (log ++ (b₀.execute ser used i).2) := by
  obtain ⟨hstep, hsettled⟩ := @execute_abstract ser b₀ used i huses (hlater ▸ h.settled)
  have hdone := @execute_done ser b₀ used i
  have hhandled : handledInputs (log ++ (b₀.execute ser used i).2) = handledInputs log ++ [i] := by
    rw [handledInputs_append, execute_handled]
  have houts : (Fsm.controller ser).outs Controller.initial (handledInputs log ++ [i]) =
      (Fsm.controller ser).outs Controller.initial (handledInputs log) ++
        ((Fsm.controller ser).step (b₀.controller used) i).2 := by
    have hall := step_switches_eq ser b₀ huses (lane switchOf b₀.main)
    rw [Machine.outs_snoc, ← h.same, ← hsame, hall]
  have hwhole : doneBy (log ++ (b₀.execute ser used i).2) ++ (b₀.execute ser used i).1.later =
      doneBy log ++ (((Fsm.controller ser).step (b₀.controller used) i).2 ++ b.later) := by
    rw [doneBy_append, List.append_assoc, hdone, hlater]
  refine ⟨?_, ?_, fun hstraight => ?_, hqueue, fun hnot => absurd hrunning (hnot e), hsettled,
    reached_awaitsLast _, fun hne => absurd rfl hne⟩
  · rw [hhandled, Machine.exec_snoc, ← h.same, ← hsame]
    exact hstep.symm
  · rw [hhandled, houts, hwhole]
    -- what is done now comes before what stood in the task
    refine (List.Perm.append_left _ List.perm_append_comm).trans ?_
    rw [← List.append_assoc]
    exact h.all.append_right _
  · have hnone : b.later = [] := by
      refine hlater ▸ hstraight i b₀.later (List.mem_append_right _ ?_)
      exact List.mem_cons_self
    have hbefore := h.inOrder hstraight.left
    rw [hnone, List.append_nil] at hbefore
    rw [hhandled, houts, hwhole, hnone, List.append_nil, hbefore]

/-- `Start` in a task that begins. -/
theorem Relayed.started (h : Relayed ser b log)
    (hsame : b'.abstract = ((Fsm.controller ser).step b.abstract .start).1)
    (hnone : ((Fsm.controller ser).step b.abstract .start).2 = []) (hlater : b'.later = b.later)
    (hqueue : Lane switchOf .worker 0 b'.main) {e : Entry Job} (hrunning : b'.main.phase = .running e)
    (hlast : AwaitsLast b'.pending) (hrefusal : b'.refusal = none) :
    Relayed ser b' (log ++ [.handled .start []]) := by
  have hhandled : handledInputs (log ++ [.handled .start []]) = handledInputs log ++ [.start] :=
    handledInputs_append log _
  have hdone : doneBy (log ++ [.handled .start []]) = doneBy log :=
    (doneBy_append log _).trans (List.append_nil _)
  have houts : (Fsm.controller ser).outs Controller.initial (handledInputs log ++ [.start]) =
      (Fsm.controller ser).outs Controller.initial (handledInputs log) := by
    rw [Machine.outs_snoc, ← h.same, hnone, List.append_nil]
  refine ⟨?_, ?_, fun hstraight => ?_, hqueue, fun hnot => absurd hrunning (hnot e),
    hlater ▸ h.settled, hlast, fun hne => absurd hrefusal hne⟩
  · rw [hsame, hhandled, Machine.exec_snoc, ← h.same]
  · rw [hdone, hlater, hhandled, houts]
    exact h.all
  · rw [hdone, hlater, hhandled, houts]
    exact h.inOrder hstraight.left

/-- A task runs. -/
theorem Relayed.ran (h : Relayed ser b log) {e : Entry Job} {es : List (Entry Job)} {job : Job}
    (roll : Roll) (resumed : Option Resume) (hphase : b.main.phase = .waiting)
    (htasks : b.main.tasks = e :: es) (htask : e.task = .work job) {b₀ : Bridge}
    (hb : b₀ = { b with main := b.main.running e es }) :
    Relayed ser (b₀.run ser roll resumed job).1 (log ++ (b₀.run ser roll resumed job).2) := by
  obtain ⟨hpending, hlater, hrefusal⟩ := h.idle fun e hrunning => nomatch hphase.symm.trans hrunning
  obtain ⟨hlane, hqueue⟩ := h.queue.started e es (.running e) htasks
  have hlane₀ : Lane switchOf .worker 0 b₀.main := hb ▸ hlane
  have hrunning : b₀.main.phase = .running e := hb ▸ rfl
  have hlater₀ : b₀.later = b.later := hb ▸ rfl
  have hqueue₀ : lane switchOf b.main = (switchOf (.work job)).toList ++ lane switchOf b₀.main := by
    have hstarted : startedOf switchOf [.started e b.main.now] = (switchOf e.task).toList :=
      (filterMap_cons_toList (fun e : Entry Job => switchOf e.task) e []).trans (List.append_nil _)
    rw [hstarted, List.append_nil, htask] at hqueue
    rw [hqueue, hb]
    rfl
  have hsame : b₀.controller ((switchOf (.work job)).toList ++ lane switchOf b₀.main) = b.abstract := by
    rw [Bridge.abstract, hpending, hqueue₀, hb]
    exact congrArg (Bridge.controller b) (List.append_nil _).symm
  -- a task that does nothing, and one in which the controller executes something
  have hnothing : (switchOf (.work job)).toList = [] → ∀ evs : List BridgeEvent,
      (∀ e ∈ evs, e.handled? = none ∧ e.did? = none) → Relayed ser b₀ (log ++ evs) :=
    fun hnone evs hevs => by
      have hpending₀ : b₀.pending = b.pending := hb ▸ rfl
      have hrefusal₀ : b₀.refusal = b.refusal := hb ▸ rfl
      refine h.still hevs ?_ hlater₀ hlane₀ (fun hnot => absurd hrunning (hnot e)) ?_ ?_
      · rw [← hsame, hnone, Bridge.abstract, hpending₀, hpending]
        exact congrArg b₀.controller (List.append_nil _)
      · exact hpending₀ ▸ h.last
      · rw [hrefusal₀, hpending₀]
        exact h.refused
  have hexecute : ∀ {used i}, Uses i used → (switchOf (.work job)).toList = used →
      Relayed ser (b₀.execute ser used i).1 (log ++ (b₀.execute ser used i).2) := by
    intro used i huses hused
    subst hused
    exact h.execute huses hlater₀ hsame hlane₀ hrunning
  cases job with
  | start number =>
    have hc : b.abstract = b₀.controller (lane switchOf b₀.main) := hsame.symm
    unfold Bridge.run
    dsimp only
    -- `Start` does nothing when there is a manager, and requests the first switch otherwise
    by_cases hmanager : b₀.manager.isSome = true
    · have hstart : (Fsm.controller ser).step (b₀.controller (lane switchOf b₀.main)) .start =
          (b₀.controller (lane switchOf b₀.main), []) := if_pos hmanager
      have hpending₀ : b₀.pending = [] := (hb ▸ rfl : b₀.pending = b.pending).trans hpending
      have hrefusal₀ : b₀.refusal = none := (hb ▸ rfl : b₀.refusal = b.refusal).trans hrefusal
      rw [if_pos hmanager]
      refine h.started ?_ ?_ hlater₀ hlane₀ hrunning ?_ hrefusal₀
      · rw [hc, hstart, Bridge.abstract, hpending₀]
        exact congrArg b₀.controller (List.append_nil _)
      · rw [hc, hstart]
      · rw [hpending₀]
        exact awaitsLast_of_none fun _ => List.not_mem_nil
    · have hstart : (Fsm.controller ser).step (b₀.controller (lane switchOf b₀.main)) .start =
          (⟨true, b₀.state, lane switchOf b₀.main ++ [.idle false], b₀.round⟩, []) := if_neg hmanager
      rw [if_neg hmanager]
      refine h.started ?_ ?_ hlater₀ hlane₀ hrunning ?_ ?_
      · rw [hc, hstart]
        rfl
      · rw [hc, hstart]
      · exact awaitsLast_of_none fun _ hin => nomatch List.mem_singleton.mp hin
      · exact (hb ▸ rfl : b₀.refusal = b.refusal).trans hrefusal
  | event eventId args =>
    unfold Bridge.run
    dsimp only
    cases (b₀.controller []).handed eventId args with
    | none => exact hnothing rfl [] (List.forall_mem_nil _)
    | some event => exact hexecute (.event event roll) rfl
  | resume =>
    unfold Bridge.run
    cases resumed with
    | none => exact hnothing rfl [] (List.forall_mem_nil _)
    | some i => exact hexecute (.resume i) rfl
  | switch target => exact hexecute (.fire target) rfl

/-- A command is refused or finds no number. -/
theorem Relayed.dropped (h : Relayed ser b log) {o : Out} {rest : List Out} (isFull : Bool)
    (hpending : b.pending = o :: rest) (ho : ∀ target, o ≠ .switch target) {e : Entry Job}
    (hrunning : b.main.phase = .running e) :
    Relayed ser { b with pending := rest, refusal := refusalOf o } (log ++ dropped o isFull) := by
  have hrequested : requested b.pending = requested rest := by
    rw [hpending]
    cases o with
    | switch target => exact absurd rfl (ho target)
    | _ => rfl
  have hevents : ∀ e ∈ Dispatch.dropped o isFull, e.handled? = none ∧ e.did? = none := by
    intro e he
    cases o with
    | issue cmd =>
      cases isFull <;>
      · rw [List.mem_singleton.mp he]
        exact ⟨rfl, rfl⟩
    | _ => exact absurd he List.not_mem_nil
  refine h.still hevents ?_ rfl h.queue (fun hnot => absurd hrunning (hnot e))
    (hpending ▸ h.last).tail fun hne => ?_
  · exact congrArg (fun q => b.controller (lane switchOf b.main ++ q)) hrequested.symm
  · -- a command that is awaited is the last thing to be done
    cases o with
    | issue cmd =>
      by_cases hawaited : cmd.awaited = true
      · exact h.last [] cmd rest hpending hawaited
      · exact absurd (if_neg hawaited) hne
    | _ => exact absurd rfl hne

/-- The thread goes on behind a command that is awaited. -/
theorem Relayed.wentOn (h : Relayed ser b log) (hpending : b.pending = []) :
    Relayed ser (b.goOn b.later).1 (log ++ (b.goOn b.later).2) := by
  obtain ⟨hreached, hbehind⟩ := @reached_requested [] b.later (Or.inl rfl) h.settled
  have hdone : doneBy (log ++ (b.goOn b.later).2) ++ (b.goOn b.later).1.later =
      doneBy log ++ b.later := by
    have hmap : doneBy (b.goOn b.later).2 = Bridge.reached b.later := doneBy_map _
    rw [doneBy_append, hmap, List.append_assoc]
    exact congrArg (doneBy log ++ ·) (reached_behind b.later)
  have hhandled : handledInputs (log ++ (b.goOn b.later).2) = handledInputs log := by
    have hnone : handledInputs (b.goOn b.later).2 = [] := handledInputs_map _
    rw [handledInputs_append, hnone, List.append_nil]
  refine ⟨?_, ?_, fun hstraight => ?_, h.queue, fun hnot => ?_, hbehind, reached_awaitsLast _,
    fun hne => absurd rfl hne⟩
  · rw [hhandled, ← h.same]
    show b.controller (lane switchOf b.main ++ requested (didOuts (Bridge.reached b.later))) = _
    rw [Bridge.abstract, hpending]
    exact congrArg (fun q => b.controller (lane switchOf b.main ++ q)) hreached
  · rw [hdone, hhandled]
    exact h.all
  · rw [hdone, hhandled]
    exact h.inOrder hstraight.left
  · obtain ⟨_, hlater, _⟩ := h.idle hnot
    rw [hlater]
    exact ⟨rfl, rfl, rfl⟩

/-- **One step**: whatever happens, the controller of `Fsm.Controller` follows. -/
theorem Relayed.step (h : Relayed ser b log) {after : Bridge × List BridgeEvent}
    (hdoes : Does ser b i after) : Relayed ser after.1 (log ++ after.2) := by
  have hbusy : b.pending ≠ [] ∨ b.refusal ≠ none → ∃ e, b.main.phase = .running e := by
    intro hne
    by_contra hnot
    obtain ⟨hpending, _, hrefusal⟩ := h.idle (not_exists.mp hnot)
    rcases hne with hne | hne
    · exact hne hpending
    · exact hne hrefusal
  have hpended : ∀ {o rest}, b.pending = o :: rest → ∃ e, b.main.phase = .running e :=
    fun hpending => hbusy (Or.inl (hpending ▸ List.cons_ne_nil _ _))
  cases hdoes with
  | idle => exact h.still (List.forall_mem_nil _) rfl rfl h.queue h.idle h.last h.refused
  | tick d =>
    obtain ⟨hlane, hsame⟩ := h.queue.still (i := .tick d) trivial rfl nofun
    exact h.still (List.forall_mem_nil _)
      (congrArg (fun q => b.controller (q ++ requested b.pending)) hsame) rfl hlane h.idle h.last h.refused
  | main k hk =>
    obtain ⟨hlane, hsame⟩ := hk.queue h.queue
    exact h.still (List.forall_mem_map.mpr fun _ _ => ⟨rfl, rfl⟩)
      (congrArg (fun q => b.controller (q ++ requested b.pending)) hsame) rfl hlane (hk.idle h.idle)
      h.last h.refused
  | called n job forward hjob _ _ _ =>
    obtain ⟨hlane, hsame⟩ := h.queue.still (i := .schedule (.other n) true 0 (.work job))
      (keeps_schedule hjob) (queued_schedule hjob) nofun
    refine h.still (List.forall_mem_singleton.mpr ⟨rfl, rfl⟩)
      (congrArg (fun q => b.controller (q ++ requested b.pending)) hsame) rfl hlane (fun hnot => ?_)
      h.last h.refused
    exact h.idle ((schedule_phase b.main _ _ _ _) ▸ hnot)
  | jni k hk => exact h.still (List.forall_mem_map.mpr fun _ _ => ⟨rfl, rfl⟩) rfl rfl h.queue h.idle h.last h.refused
  | calledJni n job _ _ _ =>
    exact h.still (List.forall_mem_singleton.mpr ⟨rfl, rfl⟩) rfl rfl h.queue h.idle h.last h.refused
  | ran e es job roll resumed hphase htasks _ htask =>
    have hstarted : Relayed ser b (log ++ [.main (.started e b.main.now)]) :=
      h.still (List.forall_mem_singleton.mpr ⟨rfl, rfl⟩) rfl rfl h.queue h.idle h.last h.refused
    rw [List.append_cons]
    exact hstarted.ran roll resumed hphase htasks htask rfl
  | stopped e es hphase htasks _ htask =>
    obtain ⟨hlane, hqueue⟩ := h.queue.started e es (.running e) htasks
    have hstarted : startedOf switchOf [.started e b.main.now] = [] := by
      show (starts [.started e b.main.now]).filterMap _ = []
      exact List.filterMap_cons_none (by rw [htask]; rfl)
    rw [hstarted, List.append_nil, List.nil_append] at hqueue
    exact h.still (List.forall_mem_singleton.mpr ⟨rfl, rfl⟩)
      (congrArg (fun q => b.controller (q ++ requested b.pending)) hqueue.symm) rfl hlane
      (fun hnot => absurd rfl (hnot e)) h.last h.refused
  | requested target rest hpending hrefusal hfree =>
    obtain ⟨hmain, _⟩ := mainFree_free hfree
    obtain ⟨hlane, hqueue⟩ := h.queue.scheduled (.work (.switch target)) hmain rfl
    obtain ⟨e, hrunning⟩ := hpended hpending
    refine h.still (List.forall_mem_nil _) ?_ rfl hlane (fun hnot => ?_)
      (hpending ▸ h.last).tail fun hne => absurd hrefusal hne
    · rw [Bridge.abstract, Bridge.abstract, hpending]
      show b.controller (lane switchOf (workerMachine.step b.main _).1 ++ requested rest) = _
      rw [hqueue, List.append_assoc]
      rfl
    · exact absurd ((schedule_phase b.main _ _ _ _).trans hrunning) (hnot e)
  | invoked cmd bridge rest hpending hrefusal _ _ _ =>
    obtain ⟨e, hrunning⟩ := hpended hpending
    refine h.still (List.forall_mem_singleton.mpr ⟨rfl, rfl⟩) ?_ rfl h.queue
      (fun hnot => absurd hrunning (hnot e)) (hpending ▸ h.last).tail fun hne => absurd hrefusal hne
    show b.controller (lane switchOf b.main ++ requested rest) = _
    rw [Bridge.abstract, hpending]
    rfl
  | dropped o isFull rest hpending _ ho _ =>
    obtain ⟨e, hrunning⟩ := hpended hpending
    exact h.dropped isFull hpending ho hrunning
  | wentOn hpending _ => exact h.wentOn hpending
  | answered cmd s r hrefusal hstate _ _ =>
    have hne : b.refusal ≠ none := hrefusal ▸ Option.some_ne_none cmd
    obtain ⟨e, hrunning⟩ := hbusy (Or.inr hne)
    refine h.execute (.resume r) rfl ?_ h.queue hrunning
    rw [Bridge.abstract, h.refused hne]
    exact congrArg b.controller (List.append_nil _).symm
  | ranJni e es job hphase htasks hdue htask =>
    have hevents : ∀ evs : List BridgeEvent, (∀ e ∈ evs, e.handled? = none ∧ e.did? = none) →
        ∀ e' ∈ BridgeEvent.jni (.started e b.jni.now) :: evs, e'.handled? = none ∧ e'.did? = none :=
      fun evs hevs => List.forall_mem_cons.mpr ⟨⟨rfl, rfl⟩, hevs⟩
    cases job with
    | bridgeReady =>
      exact h.still (hevents [] (List.forall_mem_nil _)) rfl rfl h.queue h.idle h.last h.refused
    | unload =>
      exact h.still (hevents [] (List.forall_mem_nil _)) rfl rfl h.queue h.idle h.last h.refused
    | pass cmd bridge =>
      exact h.still (hevents [.passed cmd] (List.forall_mem_singleton.mpr ⟨rfl, rfl⟩)) rfl rfl h.queue
        h.idle h.last h.refused
  | stoppedJni e es _ _ _ _ =>
    exact h.still (List.forall_mem_singleton.mpr ⟨rfl, rfl⟩) rfl rfl h.queue h.idle h.last h.refused

theorem Relayed.initial (ser : ISerializer) (now : Int) : Relayed ser (Bridge.initial now) [] :=
  ⟨rfl, List.Perm.refl _, fun _ => rfl, Lane.new switchOf .worker 0 unbounded now,
    fun _ => ⟨rfl, rfl, rfl⟩, rfl, awaitsLast_of_none fun _ => List.not_mem_nil, fun _ => rfl⟩

end Refinement

/-- **The bridge runs the controller**: in every run, what the tasks of the main worker make the
    controller do is a run of `Fsm.controller`, with the same state and the same switches: they are
    executed in the order in which they are requested, however many other tasks wait and whenever the
    clock moves on. What has been done and what stands in the task is what that run does, each once;
    and in the same order, unless the coroutine of a refused command went on before something else
    that stood in its task. -/
theorem relay_refines (ser : ISerializer) (now : Int) (is : List BridgeInput) :
    ((bridge ser).exec (Bridge.initial now) is).abstract =
      (Fsm.controller ser).exec Controller.initial
        (handledInputs ((bridge ser).outs (Bridge.initial now) is)) ∧
    (doneBy ((bridge ser).outs (Bridge.initial now) is) ++
        ((bridge ser).exec (Bridge.initial now) is).later).Perm
      ((Fsm.controller ser).outs Controller.initial
        (handledInputs ((bridge ser).outs (Bridge.initial now) is))) ∧
    (Straight ((bridge ser).outs (Bridge.initial now) is) →
      doneBy ((bridge ser).outs (Bridge.initial now) is) ++
          ((bridge ser).exec (Bridge.initial now) is).later =
        (Fsm.controller ser).outs Controller.initial
          (handledInputs ((bridge ser).outs (Bridge.initial now) is))) := by
  have h : Relayed ser ((bridge ser).exec (Bridge.initial now) is)
      ((bridge ser).outs (Bridge.initial now) is) :=
    Machine.log_invariant (fun b _ i h => h.step (bridge_does ser b i)) (Relayed.initial ser now) is
  exact ⟨h.same, h.all, h.inOrder⟩

end Veridie.Dispatch
