/-
  File:      Veridie/Fsm/Controller.lean
  Subject:   The controller and the state it holds (ctrl/controller.cpp, fsm/context.hpp): events and
             answers go to the current state; a switch waits behind a timer of no delay.

  The timers of no delay expire in the order they were started, so the switches that were requested
  are a queue. A switch to the class of the current state does nothing; any other one destroys the
  current state and constructs the new one.

  * `FsmState` -- the states with their members;
  * `Controller.fire` -- the oldest switch is executed;
  * `controller` -- the controller over everything that can happen to it.
-/
import Veridie.Fsm.Idle
import Veridie.Fsm.Connecting
import Veridie.Fsm.Negotiating
import Veridie.Fsm.Playing

namespace Veridie.Fsm

open Veridie.Lib Veridie.Dice Veridie.Sign

/-! ## 1. States -/

/-- What `stateHolder` can hold. -/
inductive FsmState where
  | idle (s : StateIdle)
  | connecting (s : StateConnecting)
  | negotiating (s : StateNegotiating)
  | playing (s : StatePlaying)

/-- `typeid` of the state. -/
def FsmState.kind : FsmState → Kind
  | idle _ => .idle
  | connecting _ => .connecting
  | negotiating _ => .negotiating
  | playing _ => .playing

/-- The destructor of the state. -/
def FsmState.destroy : FsmState → List Out
  | connecting s => s.destroy
  | playing s => s.destroy
  | _ => []

/-- `m_state`, the switches that wait, and `g_negotiationRound`; `started` is `m_cmdManager`. -/
structure Controller where
  started : Bool
  state : Option FsmState
  switches : List Target
  round : UInt32

/-- What the controller does: the outputs of a state, and the contents of `stateHolder`; `none` is
    an emptied one. -/
inductive Trace where
  | did (o : Out)
  | installed (kind : Option Kind)

/-- The switches requested by a list of outputs. -/
def requested (outs : List Out) : List Target :=
  outs.filterMap fun
    | .switch t => some t
    | _ => none

/-! ## 2. Handlers -/

/-- The answers and timers of whichever state there is. -/
inductive Resume where
  | idle (i : IdleResume)
  | connecting (i : ConnectingResume)
  | negotiating (i : NegotiatingResume)
  | playing (i : PlayingResume)

/-- What can happen to the controller; an event comes with what the engine would draw. -/
inductive ControllerInput where
  | start
  | event (e : Event) (roll : Roll)
  | resume (i : Resume)
  | fire

namespace FsmState

/-- The handler of an event. -/
def onEvent (ser : ISerializer) (round : UInt32) (e : Event) (roll : Roll) :
    FsmState → FsmState × UInt32 × List Out
  | idle s => let (s, o) := s.onEvent e; (idle s, round, o)
  | connecting s => let (s, o) := s.onEvent ser e; (connecting s, round, o)
  | negotiating s => let (n, o) := Negotiation.onEvent ser ⟨round, s⟩ e; (negotiating n.state, n.round, o)
  | playing s => let (s, o) := s.onEvent ser roll e; (playing s, round, o)

/-- A coroutine behind what it waits for; one of another state has been cancelled with it. -/
def resume (ser : ISerializer) (round : UInt32) : FsmState → Resume → FsmState × UInt32 × List Out
  | idle s, .idle i => let (s, o) := s.resume i; (idle s, round, o)
  | connecting s, .connecting i => let (s, o) := s.resume ser i; (connecting s, round, o)
  | negotiating s, .negotiating i =>
    let (n, o) := Negotiation.resume ser ⟨round, s⟩ i; (negotiating n.state, n.round, o)
  | playing s, .playing i => let (s, o) := s.resume i; (playing s, round, o)
  | s, _ => (s, round, [])

/-- What an input other than a switch makes of the state. -/
def handle (ser : ISerializer) (round : UInt32) (s : FsmState) :
    ControllerInput → FsmState × UInt32 × List Out
  | .event e roll => s.onEvent ser round e roll
  | .resume i => s.resume ser round i
  | _ => (s, round, [])

end FsmState

/-- The constructor a switch calls; `none` for `void`. -/
def Target.construct (ser : ISerializer) (round : UInt32) :
    Target → Option (FsmState × UInt32 × List Out)
  | idle startNewGame => let (s, o) := StateIdle.construct startNewGame; some (.idle s, round, o)
  | connecting => let (s, o) := StateConnecting.construct; some (.connecting s, round, o)
  | negotiating peers localMac =>
    let (n, o) := Negotiation.construct round peers localMac
    some (.negotiating n.state, n.round, o)
  | negotiatingWithOffer peers localMac sender message =>
    let (n, o) := Negotiation.constructWithOffer ser round peers localMac sender message
    some (.negotiating n.state, n.round, o)
  | playing peers localMac generatorMac =>
    some (.playing (StatePlaying.construct peers localMac generatorMac), round, [])
  | empty => none

namespace Controller

/-- The state after a handler or a constructor, its switches behind those that wait. -/
def absorb (c : Controller) (r : FsmState × UInt32 × List Out) : Controller :=
  { c with state := some r.1, round := r.2.1, switches := c.switches ++ requested r.2.2 }

/-- An event or an answer: nothing without a state. -/
def handle (ser : ISerializer) (c : Controller) (i : ControllerInput) : Controller × List Trace :=
  match c.state with
  | none => (c, [])
  | some s =>
    let r := s.handle ser c.round i
    (c.absorb r, r.2.2.map .did)

/-- `Start`. -/
def start (c : Controller) : Controller × List Trace :=
  if c.started then (c, [])
  else ({ c with started := true, switches := c.switches ++ [.idle false] }, [])

/-- The destructor of what is held. -/
def destroyed (c : Controller) : List Out :=
  match c.state with
  | some s => s.destroy
  | none => []

/-- `SwitchToState` behind its timer, for the oldest switch. -/
def fire (ser : ISerializer) (c : Controller) : Controller × List Trace :=
  match c.switches with
  | [] => (c, [])
  | t :: rest =>
    match t.construct ser c.round with
    | none =>
      ({ c with state := none, switches := rest },
        c.destroyed.map .did ++ if c.state.isSome then [.installed none] else [])
    | some r =>
      if c.state.map FsmState.kind = some r.1.kind then ({ c with switches := rest }, [])
      else ({ c with switches := rest }.absorb r,
        c.destroyed.map .did ++ r.2.2.map .did ++ [.installed (some r.1.kind)])

end Controller

/-- The controller before `Start`; `g_negotiationRound` is 0. -/
def Controller.initial : Controller := ⟨false, none, [], 0⟩

/-- The controller over everything that can happen to it. -/
def controller (ser : ISerializer) : Machine Controller ControllerInput Trace where
  step c i :=
    match i with
    | .start => c.start
    | .fire => c.fire ser
    | i => c.handle ser i

/-! ## 3. Constructors request no switch -/

theorem requested_append (o o' : List Out) : requested (o ++ o') = requested o ++ requested o' :=
  List.filterMap_append

theorem requested_onMessageReceived (ser : ISerializer) (n : Negotiation) (sender : Device)
    (message : Str) : requested (n.onMessageReceived ser sender message).2 = [] := by
  unfold Negotiation.onMessageReceived
  dsimp only
  split
  · split <;> rfl
  · rfl

/-- A constructor makes a state of the class of the switch, and requests none. -/
theorem requested_construct {ser : ISerializer} {round : UInt32} {t : Target}
    {r : FsmState × UInt32 × List Out} (h : t.construct ser round = some r) :
    requested r.2.2 = [] ∧ t.kind = some r.1.kind := by
  cases t with
  | idle startNewGame =>
    cases h
    cases startNewGame <;> exact ⟨rfl, rfl⟩
  | connecting =>
    cases h
    exact ⟨rfl, rfl⟩
  | negotiating peers localMac =>
    cases h
    exact ⟨rfl, rfl⟩
  | negotiatingWithOffer peers localMac sender message =>
    cases h
    exact ⟨requested_onMessageReceived ser _ sender message, rfl⟩
  | playing peers localMac generatorMac =>
    cases h
    exact ⟨rfl, rfl⟩
  | empty => exact nomatch h

/-- A switch to `void` constructs nothing. -/
theorem kind_of_construct_none {ser : ISerializer} {round : UInt32} {t : Target}
    (h : t.construct ser round = none) : t.kind = none := by
  cases t with
  | empty => rfl
  | _ => cases h

end Veridie.Fsm
