/-
  File:      Veridie/Dispatch/Invokers.lean
  Subject:   The invokers that the manager has got from the first `bridgeReady`, and what a further one
             makes of them.

  The manager keeps its invokers for ever, but they only refer to a `JavaInvoker`, which `bridgeReady`
  replaces and which goes when the library is unloaded.

  * `Gone`, `invokers_gone` -- a `JavaInvoker` that has gone does not come back: no command gets through
    any more;
  * `Only`, `never_refused` -- nothing is refused as long as there has been one `bridgeReady` only.
-/
import Veridie.Dispatch.Delivery

namespace Veridie.Dispatch

open Veridie.Lib Veridie.Dice Veridie.Fsm
open Veridie.Sign (Cmd)

/-! ## 1. Numbers -/

/-- A task refers to invokers that have been made. -/
def MadeBefore (made : Nat) (task : Task Job) : Prop := ∀ number, task = .work (.start number) → number < made

/-- All invokers have been made. -/
structure Numbered (b : Bridge) : Prop where
  invokers : ∀ number, b.invokers = some number → number < b.made
  forward : ∀ number, b.forward = some number → number < b.made
  manager : ∀ number, b.manager = some number → number < b.made
  main : All (MadeBefore b.made) b.main

section Numbered

variable {ser : ISerializer} {b : Bridge} {i : BridgeInput}

theorem Numbered.initial (now : Int) : Numbered (Bridge.initial now) :=
  ⟨nofun, nofun, nofun, All.new _ unbounded now⟩

/-- What a task of the main worker leaves alone; the manager gets its invokers once. -/
structure Leaves (b : Bridge) (job : Job) (after : Bridge × List BridgeEvent) : Prop where
  jni : after.1.jni = b.jni
  work : after.1.work = b.work
  invokers : after.1.invokers = b.invokers
  made : after.1.made = b.made
  forward : after.1.forward = b.forward
  manager : after.1.manager = b.manager ∨
    b.manager = none ∧ ∃ number, job = .start number ∧ after.1.manager = some number
  silent : ∀ cmd, .invoked cmd ∉ after.2 ∧ .refused cmd ∉ after.2

theorem execute_leaves (used : List Target) (i : ControllerInput) (job : Job) :
    Leaves b job (b.execute ser used i) := by
  refine ⟨rfl, rfl, rfl, rfl, rfl, Or.inl rfl, fun cmd => ⟨fun hin => ?_, fun hin => ?_⟩⟩
  · rcases List.mem_cons.mp hin with heq | hin
    · cases heq
    · obtain ⟨t, _, heq⟩ := List.mem_map.mp hin
      cases heq
  · rcases List.mem_cons.mp hin with heq | hin
    · cases heq
    · obtain ⟨t, _, heq⟩ := List.mem_map.mp hin
      cases heq

theorem run_leaves (roll : Roll) (resumed : Option Resume) (job : Job) :
    Leaves b job (b.run ser roll resumed job) := by
  have hnothing : Leaves b job (b, []) :=
    ⟨rfl, rfl, rfl, rfl, rfl, Or.inl rfl, fun _ => ⟨List.not_mem_nil, List.not_mem_nil⟩⟩
  cases job with
  | start number =>
    have hstart : ∀ cmd, BridgeEvent.invoked cmd ∉ [BridgeEvent.handled .start []] ∧
        BridgeEvent.refused cmd ∉ [BridgeEvent.handled .start []] := by
      intro cmd
      refine ⟨fun h => ?_, fun h => ?_⟩
      · cases List.mem_singleton.mp h
      · cases List.mem_singleton.mp h
    unfold Bridge.run
    dsimp only
    by_cases hmanager : b.manager.isSome = true
    · rw [if_pos hmanager]
      exact ⟨rfl, rfl, rfl, rfl, rfl, Or.inl rfl, hstart⟩
    · rw [if_neg hmanager]
      have hgot : b.manager = none := Option.not_isSome_iff_eq_none.mp hmanager
      exact ⟨rfl, rfl, rfl, rfl, rfl, Or.inr ⟨hgot, number, rfl, rfl⟩, hstart⟩
  | event eventId args =>
    unfold Bridge.run
    dsimp only
    split
    · exact execute_leaves [] _ _
    · exact hnothing
  | resume =>
    unfold Bridge.run
    cases resumed with
    | none => exact hnothing
    | some i => exact execute_leaves [] _ _
  | switch target => exact execute_leaves [target] .fire _

theorem Numbered.step (h : Numbered b) {after : Bridge × List BridgeEvent}
    (hdoes : Does ser b i after) : Numbered after.1 := by
  cases hdoes with
  | idle => exact h
  | tick d => exact ⟨h.invokers, h.forward, h.manager, h.main.step (i := .tick d) trivial⟩
  | main k hk =>
    refine ⟨h.invokers, h.forward, h.manager, h.main.step ?_⟩
    cases hk with
    | waitFor delay =>
      intro number heq
      cases heq
    | lock t => trivial
    | finish exception _ _ _ => trivial
  | called n job forward _ hstart hforward _ =>
    refine ⟨h.invokers, ?_, h.manager, h.main.step ?_⟩
    · rcases hforward with rfl | rfl
      · exact h.forward
      · exact nofun
    · intro number heq
      cases heq
      exact h.forward number (hstart number rfl)
  | jni k _ => exact ⟨h.invokers, h.forward, h.manager, h.main⟩
  | calledJni n job _ _ _ => exact ⟨h.invokers, h.forward, h.manager, h.main⟩
  | ran e es job roll resumed _ htasks _ htask =>
    obtain ⟨htaken, hmain⟩ := h.main.started htasks (.running e)
    obtain ⟨b₀, hb⟩ : ∃ b₀ : Bridge, b₀ = { b with main := b.main.running e es } := ⟨_, rfl⟩
    have hleaves : Leaves b₀ job (b₀.run ser roll resumed job) := run_leaves roll resumed job
    have hsame : (b₀.run ser roll resumed job).1.main = b₀.main := (run_off roll resumed job).1
    rw [← hb]
    generalize b₀.run ser roll resumed job = after at hleaves hsame ⊢
    subst hb
    refine ⟨?_, ?_, ?_, ?_⟩
    · rw [hleaves.invokers, hleaves.made]
      exact h.invokers
    · rw [hleaves.forward, hleaves.made]
      exact h.forward
    · rw [hleaves.made]
      rcases hleaves.manager with hkept | ⟨_, number, rfl, hgot⟩
      · rw [hkept]
        exact h.manager
      · intro number' hnumber
        rw [hgot] at hnumber
        cases hnumber
        exact htaken number htask
    · rw [hsame, hleaves.made]
      exact hmain
  | stopped e es _ htasks _ _ =>
    exact ⟨h.invokers, h.forward, h.manager, (h.main.started htasks (.running e)).2⟩
  | requested target rest _ _ _ =>
    refine ⟨h.invokers, h.forward, h.manager, h.main.step ?_⟩
    intro number heq
    cases heq
  | invoked cmd number rest _ _ _ _ _ => exact ⟨h.invokers, h.forward, h.manager, h.main⟩
  | dropped o isFull rest _ _ _ _ => exact ⟨h.invokers, h.forward, h.manager, h.main⟩
  | wentOn _ _ => exact ⟨h.invokers, h.forward, h.manager, h.main⟩
  | answered cmd s r _ _ _ _ => exact ⟨h.invokers, h.forward, h.manager, h.main⟩
  | ranJni e es job _ _ _ _ =>
    cases job with
    | bridgeReady =>
      have hlater : ∀ number, number < b.made → number < b.made + 1 := fun _ => Nat.lt_succ_of_lt
      refine ⟨?_, ?_, fun number hnumber => hlater number (h.manager number hnumber),
        h.main.mono fun t ht number hnumber => hlater number (ht number hnumber)⟩
      · intro number hnumber
        cases hnumber
        exact Nat.lt_succ_self _
      · intro number hnumber
        cases hnumber
        exact Nat.lt_succ_self _
    | unload => exact ⟨nofun, h.forward, h.manager, h.main⟩
    | pass cmd number => exact ⟨h.invokers, h.forward, h.manager, h.main⟩
  | stoppedJni e es _ _ _ _ => exact ⟨h.invokers, h.forward, h.manager, h.main⟩

theorem numbered_run (ser : ISerializer) (now : Int) (is : List BridgeInput) :
    Numbered ((bridge ser).exec (Bridge.initial now) is) :=
  Machine.invariant (fun b i h => h.step (bridge_does ser b i)) (Numbered.initial now) is

end Numbered

/-! ## 2. A `JavaInvoker` that has gone -/

/-- The manager's invoker of a kind finds its `JavaInvoker` no more. -/
structure Gone (b : Bridge) (invoker : Invoker) (number : Nat) : Prop where
  manager : b.manager = some number
  made : number < b.made
  context : b.invokers ≠ some number
  jni : All (fun t => Bridge.holds invoker number t = false) b.jni
  work : ∀ t, b.work = some t → Bridge.holds invoker number t = false

section Gone

variable {ser : ISerializer} {b : Bridge} {invoker : Invoker} {number : Nat} {i : BridgeInput}

theorem alive_eq_false_iff : b.alive invoker number = false ↔ b.invokers ≠ some number ∧
    All (fun t => Bridge.holds invoker number t = false) b.jni ∧
    ∀ t, b.work = some t → Bridge.holds invoker number t = false := by
  unfold Bridge.alive
  rw [Bool.or_eq_false_iff, Bool.or_eq_false_iff, Bool.or_eq_false_iff, decide_eq_false_iff_not,
    List.any_eq_false, List.any_eq_false]
  constructor
  · intro h
    obtain ⟨⟨⟨hcontext, htasks⟩, hcalls⟩, hwork⟩ := h
    refine ⟨hcontext, ⟨fun e he => Bool.eq_false_iff.mpr (htasks e he),
      fun c hc => Bool.eq_false_iff.mpr (hcalls c hc)⟩, fun t ht => ?_⟩
    rw [ht] at hwork
    exact hwork
  · intro h
    obtain ⟨hcontext, hjni, hwork⟩ := h
    refine ⟨⟨⟨hcontext, fun e he => Bool.eq_false_iff.mp (hjni.tasks e he)⟩,
      fun c hc => Bool.eq_false_iff.mp (hjni.calls c hc)⟩, ?_⟩
    cases hw : b.work with
    | none => rfl
    | some t => exact hwork t hw

theorem Gone.dead (h : Gone b invoker number) : b.alive invoker number = false :=
  alive_eq_false_iff.mpr ⟨h.context, h.jni, h.work⟩

theorem Gone.step (h : Gone b invoker number) {after : Bridge × List BridgeEvent}
    (hdoes : Does ser b i after) : Gone after.1 invoker number ∧
      ∀ cmd, invokerOf cmd = invoker → .invoked cmd ∉ after.2 := by
  have hsilent : ∀ {γ : Type} (f : γ → BridgeEvent), (∀ x cmd, f x ≠ .invoked cmd) →
      ∀ xs : List γ, ∀ cmd, BridgeEvent.invoked cmd ∉ xs.map f := by
    intro γ f hf xs cmd hin
    obtain ⟨x, _, heq⟩ := List.mem_map.mp hin
    exact hf x cmd heq
  cases hdoes with
  | idle => exact ⟨h, fun _ _ => List.not_mem_nil⟩
  | tick d =>
    exact ⟨⟨h.manager, h.made, h.context, h.jni.step (i := .tick d) trivial, h.work⟩,
      fun _ _ => List.not_mem_nil⟩
  | main k _ =>
    exact ⟨⟨h.manager, h.made, h.context, h.jni, h.work⟩,
      fun cmd _ => hsilent .main (fun _ _ heq => by cases heq) _ cmd⟩
  | called n job forward _ _ _ _ =>
    exact ⟨⟨h.manager, h.made, h.context, h.jni, h.work⟩,
      fun cmd _ hin => nomatch List.mem_singleton.mp hin⟩
  | jni k hk =>
    refine ⟨⟨h.manager, h.made, h.context, h.jni.step ?_, h.work⟩,
      fun cmd _ => hsilent .jni (fun _ _ heq => by cases heq) _ cmd⟩
    cases hk with
    | lock t => trivial
    | finish exception => trivial
  | calledJni n job hjob _ _ =>
    refine ⟨⟨h.manager, h.made, h.context, h.jni.step ?_, h.work⟩,
      fun cmd _ hin => nomatch List.mem_singleton.mp hin⟩
    cases job with
    | bridgeReady => rfl
    | unload => rfl
    | pass cmd other => exact nomatch hjob
  | ran e es job roll resumed _ _ _ _ =>
    obtain ⟨b₀, hb⟩ : ∃ b₀ : Bridge, b₀ = { b with main := b.main.running e es } := ⟨_, rfl⟩
    have hleaves : Leaves b₀ job (b₀.run ser roll resumed job) := run_leaves roll resumed job
    rw [← hb]
    generalize b₀.run ser roll resumed job = after at hleaves ⊢
    subst hb
    refine ⟨⟨?_, ?_, ?_, ?_, ?_⟩, fun cmd _ hin => ?_⟩
    · rcases hleaves.manager with hkept | ⟨hnone, _⟩
      · exact hkept.trans h.manager
      · exact absurd (hnone.symm.trans h.manager) (Option.some_ne_none number).symm
    · rw [hleaves.made]
      exact h.made
    · rw [hleaves.invokers]
      exact h.context
    · rw [hleaves.jni]
      exact h.jni
    · rw [hleaves.work]
      exact h.work
    · rcases List.mem_cons.mp hin with heq | hin
      · cases heq
      · exact (hleaves.silent cmd).1 hin
  | stopped e es _ _ _ _ =>
    exact ⟨⟨h.manager, h.made, h.context, h.jni, h.work⟩,
      fun cmd _ hin => nomatch List.mem_singleton.mp hin⟩
  | requested target rest _ _ _ =>
    exact ⟨⟨h.manager, h.made, h.context, h.jni, h.work⟩, fun _ _ => List.not_mem_nil⟩
  | invoked cmd other rest _ _ hmanager halive _ =>
    -- the invoker that has accepted the command is of the other kind
    have hother : invokerOf cmd ≠ invoker := by
      intro hsame
      cases hmanager.symm.trans h.manager
      rw [hsame, h.dead] at halive
      cases halive
    refine ⟨⟨h.manager, h.made, h.context, h.jni.step ?_, h.work⟩, fun cmd' hkind hin => ?_⟩
    · show (decide (invokerOf cmd = invoker) && _) = false
      rw [decide_eq_false hother]
      rfl
    · cases List.mem_singleton.mp hin
      exact hother hkind
  | dropped o isFull rest _ _ _ _ =>
    refine ⟨⟨h.manager, h.made, h.context, h.jni, h.work⟩, fun cmd _ hin => ?_⟩
    cases o with
    | issue cmd' => cases isFull <;> exact nomatch List.mem_singleton.mp hin
    | _ => exact absurd hin List.not_mem_nil
  | wentOn _ _ =>
    exact ⟨⟨h.manager, h.made, h.context, h.jni, h.work⟩,
      fun cmd _ => hsilent .did (fun _ _ heq => by cases heq) _ cmd⟩
  | answered cmd s r _ _ _ _ =>
    have hleaves : Leaves b .resume (b.execute ser [] (.resume r)) := execute_leaves [] (.resume r) .resume
    exact ⟨⟨h.manager, h.made, h.context, h.jni, h.work⟩, fun cmd' _ => (hleaves.silent cmd').1⟩
  | ranJni e es job _ htasks _ htask =>
    obtain ⟨htaken, hjni⟩ := h.jni.started htasks (.running e)
    have hwork : ∀ t, some e.task = some t → Bridge.holds invoker number t = false := by
      intro t ht
      cases ht
      exact htaken
    cases job with
    | bridgeReady =>
      refine ⟨⟨h.manager, Nat.lt_succ_of_lt h.made, fun heq => ?_, hjni, hwork⟩,
        fun cmd _ hin => nomatch List.mem_singleton.mp hin⟩
      exact absurd (Option.some.inj heq).symm (Nat.ne_of_lt h.made)
    | unload =>
      exact ⟨⟨h.manager, h.made, nofun, hjni, hwork⟩,
        fun cmd _ hin => nomatch List.mem_singleton.mp hin⟩
    | pass cmd other =>
      refine ⟨⟨h.manager, h.made, h.context, hjni, hwork⟩, fun cmd' _ hin => ?_⟩
      rcases List.mem_cons.mp hin with heq | hin
      · cases heq
      · exact nomatch List.mem_singleton.mp hin
  | stoppedJni e es _ htasks _ _ =>
    obtain ⟨htaken, hjni⟩ := h.jni.started htasks (.running e)
    refine ⟨⟨h.manager, h.made, h.context, hjni, fun t ht => ?_⟩,
      fun cmd _ hin => nomatch List.mem_singleton.mp hin⟩
    cases ht
    exact htaken

theorem Gone.run (h : Gone b invoker number) (js : List BridgeInput) :
    Gone ((bridge ser).exec b js) invoker number ∧
      ∀ cmd, invokerOf cmd = invoker → .invoked cmd ∉ (bridge ser).outs b js := by
  induction js generalizing b with
  | nil => exact ⟨h, fun _ _ => List.not_mem_nil⟩
  | cons j js ih =>
    obtain ⟨hnext, hstep⟩ := h.step (bridge_does ser b j)
    obtain ⟨hlast, hrest⟩ := ih hnext
    refine ⟨hlast, fun cmd hkind hin => ?_⟩
    rw [Machine.outs_cons] at hin
    rcases List.mem_append.mp hin with hin | hin
    · exact hstep cmd hkind hin
    · exact hrest cmd hkind hin

end Gone

/-- **A `JavaInvoker` that has gone does not come back**: once another `bridgeReady`, or the end of the
    library, has taken it out of the `Context`, and the JNI worker holds no task that refers to it, no
    command of its kind is accepted any more, whatever happens. -/
theorem invokers_gone (ser : ISerializer) (now : Int) (is : List BridgeInput) (invoker : Invoker)
    (number : Nat)
    (hmanager : ((bridge ser).exec (Bridge.initial now) is).manager = some number)
    (hdead : ((bridge ser).exec (Bridge.initial now) is).alive invoker number = false)
    (js : List BridgeInput) :
    ((bridge ser).exec (Bridge.initial now) (is ++ js)).alive invoker number = false ∧
    ∀ cmd, invokerOf cmd = invoker →
      .invoked cmd ∉ (bridge ser).outs ((bridge ser).exec (Bridge.initial now) is) js := by
  obtain ⟨hcontext, hjni, hwork⟩ := alive_eq_false_iff.mp hdead
  have hgone : Gone ((bridge ser).exec (Bridge.initial now) is) invoker number :=
    ⟨hmanager, (numbered_run ser now is).manager number hmanager, hcontext, hjni, hwork⟩
  obtain ⟨hlast, hnone⟩ := @Gone.run ser _ invoker number hgone js
  rw [Machine.exec_append]
  exact ⟨hlast.dead, hnone⟩

/-- Up to the first state: the bridge is ready and the controller has been started. -/
def firstState : List BridgeInput :=
  [.bridgeReady 1, .lockJni (.other 1), .takeJni, .forwardStart, .lock (.other 0), .finishJni none,
    .take (fun _ => 0) none, .perform, .lock .worker, .finish none]

/-- The bridge becomes ready again. -/
def bridgeTwice : List BridgeInput :=
  firstState ++ [.bridgeReady 1, .lockJni (.other 1), .takeJni]

theorem bridgeTwice_manager : ((bridge (xmlSerializer walkAsIs)).exec (Bridge.initial 0)
    bridgeTwice).manager = some 0 := by decide +kernel

theorem bridgeTwice_dead : ((bridge (xmlSerializer walkAsIs)).exec (Bridge.initial 0)
    bridgeTwice).alive .bt 0 = false := by decide +kernel

/-- The first state asks for Bluetooth behind that. -/
theorem invokers_gone_twice : .invoked .enableBluetooth ∉ (bridge (xmlSerializer walkAsIs)).outs
    ((bridge (xmlSerializer walkAsIs)).exec (Bridge.initial 0) bridgeTwice)
    [.take (fun _ => 0) none, .perform] :=
  (invokers_gone (xmlSerializer walkAsIs) 0 bridgeTwice .bt 0 bridgeTwice_manager bridgeTwice_dead
    [.take (fun _ => 0) none, .perform]).2 .enableBluetooth rfl

/-! ## 3. One bridge only -/

/-- Java does not unload the library. -/
def BridgeInput.Stays : BridgeInput → Prop
  | .unload _ => False
  | _ => True

/-- The `Context` has the invokers that were made last, and nothing happens before there is a manager. -/
structure Only (b : Bridge) : Prop where
  context : 0 < b.made → b.invokers = some (b.made - 1)
  jni : All (fun t => t ≠ .work .unload) b.jni
  queue : Lane switchOf .worker 0 b.main
  begun : b.manager = none →
    b.state = none ∧ lane switchOf b.main = [] ∧ b.pending = [] ∧ b.later = []

section Only

variable {ser : ISerializer} {b : Bridge}

theorem Only.initial (now : Int) : Only (Bridge.initial now) :=
  ⟨fun h => absurd h (Nat.lt_irrefl 0), All.new _ unbounded now, Lane.new switchOf .worker 0 unbounded now,
    fun _ => ⟨rfl, rfl, rfl, rfl⟩⟩

/-- A task that runs before there is a manager. -/
theorem run_before (h : b.manager = none) (hstate : b.state = none)
    (hleft : b.pending = [] ∧ b.later = []) (roll : Roll) (resumed : Option Resume) {job : Job}
    (hjob : switchOf (.work job) = none) (hafter : (b.run ser roll resumed job).1.manager = none) :
    (b.run ser roll resumed job).1.state = none ∧
      (b.run ser roll resumed job).1.pending = [] ∧ (b.run ser roll resumed job).1.later = [] := by
  cases job with
  | start number =>
    unfold Bridge.run at hafter
    have hgot : ¬ b.manager.isSome = true := by rw [h]; exact Bool.false_ne_true
    dsimp only at hafter
    rw [if_neg hgot] at hafter
    cases hafter
  | event eventId args =>
    have hnone : (b.controller []).handed eventId args = none := by
      unfold Controller.handed Bridge.controller
      dsimp only
      rw [hstate]
      cases findHandler eventId <;> rfl
    unfold Bridge.run
    dsimp only
    rw [hnone]
    exact ⟨hstate, hleft⟩
  | resume =>
    unfold Bridge.run
    cases resumed with
    | none => exact ⟨hstate, hleft⟩
    | some i =>
      have hnothing : (Fsm.controller ser).step (b.controller []) (.resume i) = (b.controller [], []) := by
        show (b.controller []).handle ser (.resume i) = _
        unfold Controller.handle Bridge.controller
        dsimp only
        rw [hstate]
      unfold Bridge.execute
      dsimp only
      rw [hnothing, hleft.2]
      exact ⟨hstate, rfl, rfl⟩
  | switch target => exact nomatch hjob

/-- The main worker makes a step that is not about a switch. -/
theorem Only.still (h : Only b) {b' : Bridge} (hinvokers : b'.invokers = b.invokers)
    (hmade : b'.made = b.made) (hjni : All (fun t => t ≠ .work .unload) b'.jni)
    (hqueue : Lane switchOf .worker 0 b'.main)
    (hsame : lane switchOf b.main = [] → lane switchOf b'.main = [])
    (hmanager : b'.manager = b.manager) (hstate : b'.state = b.state)
    (hleft : b.pending = [] ∧ b.later = [] → b'.pending = [] ∧ b'.later = []) : Only b' := by
  refine ⟨?_, hjni, hqueue, fun hnone => ?_⟩
  · rw [hinvokers, hmade]
    exact h.context
  · obtain ⟨hbefore, hlane, hnothing⟩ := h.begun (hmanager.symm.trans hnone)
    exact ⟨hstate.trans hbefore, hsame hlane, hleft hnothing⟩

theorem Only.ran (h : Only b) {e : Entry Job} {es : List (Entry Job)} {job : Job}
    (roll : Roll) (resumed : Option Resume) (htasks : b.main.tasks = e :: es)
    (htask : e.task = .work job) {b₀ : Bridge}
    (hb : b₀ = { b with main := b.main.running e es }) :
    Only (b₀.run ser roll resumed job).1 := by
  obtain ⟨hlane, hqueue⟩ := h.queue.started e es (.running e) htasks
  have hstarted : startedOf switchOf [.started e b.main.now] = (switchOf e.task).toList :=
    (filterMap_cons_toList (fun e : Entry Job => switchOf e.task) e []).trans (List.append_nil _)
  rw [hstarted, List.append_nil, htask] at hqueue
  have hleaves : Leaves b₀ job (b₀.run ser roll resumed job) := run_leaves roll resumed job
  have hmain : (b₀.run ser roll resumed job).1.main = b₀.main := (run_off roll resumed job).1
  refine ⟨?_, ?_, ?_, fun hnone => ?_⟩
  · rw [hleaves.invokers, hleaves.made, hb]
    exact h.context
  · rw [hleaves.jni, hb]
    exact h.jni
  · rw [hmain, hb]
    exact hlane
  · have hbefore : b.manager = none := by
      rcases hleaves.manager with hkept | ⟨_, number, _, hgot⟩
      · rw [← hnone, hkept, hb]
      · exact absurd (hgot.symm.trans hnone) (Option.some_ne_none number)
    obtain ⟨hstate, hempty, hleft⟩ := h.begun hbefore
    rw [hempty] at hqueue
    obtain ⟨hjob, hrest⟩ := List.append_eq_nil_iff.mp hqueue.symm
    have hjob : switchOf (.work job) = none := Option.toList_eq_nil_iff.mp hjob
    obtain ⟨hstate', hleft'⟩ := run_before (b := b₀) (hb ▸ hbefore) (hb ▸ hstate) (hb ▸ hleft)
      roll resumed hjob hnone
    refine ⟨hstate', ?_, hleft'⟩
    rw [hmain, hb]
    exact hrest

/-- **One step**, unless the library is unloaded. -/
theorem Only.step (h : Only b) {i : BridgeInput} (hi : i.Stays) :
    Only ((bridge ser).step b i).1 := by
  have hdoes := bridge_does ser b i
  generalize (bridge ser).step b i = after at hdoes ⊢
  have hkeep : ∀ {b' : Bridge}, b'.invokers = b.invokers → b'.made = b.made → b'.jni = b.jni →
      b'.main = b.main → b'.manager = b.manager → b'.state = b.state →
      (b.pending = [] ∧ b.later = [] → b'.pending = [] ∧ b'.later = []) → Only b' := by
    intro b' hinvokers hmade hjni hmain hmanager hstate hleft
    refine h.still hinvokers hmade (hjni ▸ h.jni) (hmain ▸ h.queue) ?_ hmanager hstate hleft
    exact fun hempty => (congrArg (lane switchOf) hmain).trans hempty
  cases hdoes with
  | idle => exact h
  | tick d =>
    obtain ⟨hlane, hsame⟩ := h.queue.still (i := .tick d) trivial rfl nofun
    exact h.still rfl rfl (h.jni.step (i := .tick d) trivial) hlane hsame.trans rfl rfl id
  | main k hk =>
    obtain ⟨hlane, hsame⟩ := hk.queue h.queue
    exact h.still rfl rfl h.jni hlane hsame.trans rfl rfl id
  | called n job forward hjob _ _ _ =>
    obtain ⟨hlane, hsame⟩ := h.queue.still (i := .schedule (.other n) true 0 (.work job))
      (keeps_schedule hjob) (queued_schedule hjob) nofun
    exact h.still rfl rfl h.jni hlane hsame.trans rfl rfl id
  | jni k hk =>
    refine h.still rfl rfl (h.jni.step ?_) h.queue id rfl rfl id
    cases hk with
    | lock t => trivial
    | finish exception => trivial
  | calledJni n job _ hunload _ =>
    refine h.still rfl rfl (h.jni.step ?_) h.queue id rfl rfl id
    intro heq
    cases heq
    obtain ⟨m, rfl⟩ := hunload rfl
    exact hi
  | ran e es job roll resumed _ htasks _ htask => exact h.ran roll resumed htasks htask rfl
  | stopped e es _ htasks _ htask =>
    obtain ⟨hlane, hqueue⟩ := h.queue.started e es (.running e) htasks
    refine h.still rfl rfl h.jni hlane (fun hempty => ?_) rfl rfl id
    rw [hempty] at hqueue
    exact (List.append_eq_nil_iff.mp hqueue.symm).2
  | requested target rest hpending _ hfree =>
    obtain ⟨hmain, _⟩ := mainFree_free hfree
    obtain ⟨hlane, _⟩ := h.queue.scheduled (.work (.switch target)) hmain rfl
    refine ⟨h.context, h.jni, hlane, fun hnone => ?_⟩
    exact absurd (hpending.symm.trans (h.begun hnone).2.2.1) (List.cons_ne_nil _ _)
  | invoked cmd number rest hpending _ hmanager _ _ =>
    refine ⟨h.context, h.jni.step (fun heq => by cases heq), h.queue, fun hnone => ?_⟩
    exact absurd (hmanager.symm.trans hnone) (Option.some_ne_none number)
  | dropped o isFull rest hpending _ _ _ =>
    refine hkeep rfl rfl rfl rfl rfl rfl fun hnone => ?_
    exact absurd (hpending.symm.trans hnone.1) (List.cons_ne_nil o rest)
  | wentOn _ _ =>
    refine hkeep rfl rfl rfl rfl rfl rfl fun hnone => ?_
    show didOuts (Bridge.reached b.later) = [] ∧ Bridge.behind b.later = []
    rw [hnone.2]
    exact ⟨rfl, rfl⟩
  | answered cmd s r _ hstate _ _ =>
    refine ⟨h.context, h.jni, h.queue, fun hnone => ?_⟩
    exact absurd (hstate.symm.trans (h.begun hnone).1) (Option.some_ne_none s)
  | ranJni e es job _ htasks _ htask =>
    obtain ⟨htaken, hjni⟩ := h.jni.started htasks (.running e)
    cases job with
    | bridgeReady => exact ⟨fun _ => rfl, hjni, h.queue, h.begun⟩
    | unload => exact absurd htask htaken
    | pass cmd number => exact ⟨h.context, hjni, h.queue, h.begun⟩
  | stoppedJni e es _ htasks _ _ =>
    exact ⟨h.context, (h.jni.started htasks (.running e)).2, h.queue, h.begun⟩

theorem only_run (ser : ISerializer) (now : Int) {is : List BridgeInput} (h : ∀ i ∈ is, i.Stays) :
    Only ((bridge ser).exec (Bridge.initial now) is) :=
  Machine.invariant_along (fun _ _ hi h => h.step hi) ((bridge ser).along_of_mem h)
    (Only.initial now)

/-- Invokers are made, never lost count of. -/
theorem made_le (b : Bridge) (js : List BridgeInput) : b.made ≤ ((bridge ser).exec b js).made := by
  refine Machine.invariant (P := fun b' : Bridge => b.made ≤ b'.made) (fun b' i hle => ?_)
    (Nat.le_refl _) js
  refine hle.trans ?_
  have hdoes := bridge_does ser b' i
  generalize (bridge ser).step b' i = after at hdoes ⊢
  cases hdoes with
  | ran e es job roll resumed _ _ _ _ =>
    exact (run_leaves (b := { b' with main := b'.main.running e es }) roll resumed job).made.ge
  | ranJni e es job _ _ _ _ =>
    cases job with
    | bridgeReady => exact Nat.le_succ _
    | unload => exact Nat.le_refl _
    | pass cmd number => exact Nat.le_refl _
  | _ => exact Nat.le_refl _

/-- What is refused finds no `JavaInvoker`. -/
theorem refused_of_does {i : BridgeInput} {after : Bridge × List BridgeEvent}
    (hdoes : Does ser b i after) {cmd : Cmd} (hin : .refused cmd ∈ after.2) :
    b.pending ≠ [] ∧ ∀ number, b.manager = some number → b.alive (invokerOf cmd) number = false := by
  have hmap : ∀ {γ : Type} {f : γ → BridgeEvent} {xs : List γ}, (∀ x, f x ≠ .refused cmd) →
      BridgeEvent.refused cmd ∉ xs.map f := by
    intro γ f xs hf hin
    obtain ⟨x, _, heq⟩ := List.mem_map.mp hin
    exact hf x heq
  cases hdoes with
  | idle => exact absurd hin List.not_mem_nil
  | tick d => exact absurd hin List.not_mem_nil
  | main k _ => exact absurd hin (hmap fun _ heq => by cases heq)
  | called n job forward _ _ _ _ => cases List.mem_singleton.mp hin
  | jni k _ => exact absurd hin (hmap fun _ heq => by cases heq)
  | calledJni n job _ _ _ => cases List.mem_singleton.mp hin
  | ran e es job roll resumed _ _ _ _ =>
    rcases List.mem_cons.mp hin with heq | hin
    · cases heq
    · exact absurd hin ((run_leaves roll resumed job).silent cmd).2
  | stopped e es _ _ _ _ => cases List.mem_singleton.mp hin
  | requested target rest _ _ _ => exact absurd hin List.not_mem_nil
  | invoked cmd' number rest _ _ _ _ _ => cases List.mem_singleton.mp hin
  | wentOn _ _ => exact absurd hin (hmap fun _ heq => by cases heq)
  | answered cmd' s r _ _ _ _ =>
    exact absurd hin ((execute_leaves (b := b) [] (.resume r) .resume).silent cmd).2
  | dropped o isFull rest hpending _ _ hgone =>
    refine ⟨fun hnone => absurd (hpending.symm.trans hnone) (List.cons_ne_nil o rest), ?_⟩
    cases o with
    | issue cmd' =>
      cases isFull with
      | true => cases List.mem_singleton.mp hin
      | false =>
        cases List.mem_singleton.mp hin
        exact fun number => hgone cmd number rfl rfl
    | _ => exact absurd hin List.not_mem_nil
  | ranJni e es job _ _ _ _ =>
    cases job with
    | bridgeReady => cases List.mem_singleton.mp hin
    | unload => cases List.mem_singleton.mp hin
    | pass cmd' number =>
      rcases List.mem_cons.mp hin with heq | hin
      · cases heq
      · cases List.mem_singleton.mp hin
  | stoppedJni e es _ _ _ _ => cases List.mem_singleton.mp hin

end Only

/-- **One bridge refuses nothing**: in every run in which the bridge has become ready once at most and
    the library is not unloaded, every command finds its `JavaInvoker`. -/
theorem never_refused (ser : ISerializer) (now : Int) (is : List BridgeInput)
    (hstays : ∀ i ∈ is, i.Stays)
    (hmade : ((bridge ser).exec (Bridge.initial now) is).made ≤ 1) (cmd : Cmd) :
    .refused cmd ∉ (bridge ser).outs (Bridge.initial now) is := by
  intro hin
  obtain ⟨is₁, i, is₂, rfl, hstep⟩ := (Machine.mem_outs _).mp hin
  have hle := @made_le ser ((bridge ser).exec (Bridge.initial now) is₁) (i :: is₂)
  rw [← Machine.exec_append] at hle
  have honly := only_run ser now fun j hj => hstays j (List.mem_append_left _ hj)
  have hnumbered := numbered_run ser now is₁
  generalize (bridge ser).exec (Bridge.initial now) is₁ = b at hle hstep honly hnumbered
  obtain ⟨hpending, hdead⟩ := refused_of_does (bridge_does ser b i) hstep
  cases hmanager : b.manager with
  | none => exact hpending (honly.begun hmanager).2.2.1
  | some number =>
    have hlt := hnumbered.manager number hmanager
    have hnumber : number = b.made - 1 := by omega
    have hcontext : b.invokers = some number := hnumber ▸ honly.context (by omega)
    exact (alive_eq_false_iff.mp (hdead number hmanager)).1 hcontext

/-- The first state asks for Bluetooth. -/
theorem never_refused_first : .refused .enableBluetooth ∉ (bridge (xmlSerializer walkAsIs)).outs
    (Bridge.initial 0) (firstState ++ [.take (fun _ => 0) none, .perform]) :=
  never_refused (xmlSerializer walkAsIs) 0 (firstState ++ [.take (fun _ => 0) none, .perform])
    (by simp [firstState, BridgeInput.Stays]) (by decide +kernel) .enableBluetooth

end Veridie.Dispatch
