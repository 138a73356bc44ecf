/-
  File:      Veridie/Fsm/Events.lean
  Subject:   Events as Java sends them, a number and texts (sign/events.cpp), and `OnEvent` of the
             controller, which looks the handler up and lets it parse the texts.

  * `findHandler` -- the handlers by number;
  * `Controller.onEvent` -- the event is handed to the state, or an error is logged;
  * `Event.Received` -- the events that can be handed to a state;
  * `handler_args`, `received_of_handler` -- each of them can be sent, and nothing else gets through;
  * `events_exactly` -- the controller and Java: its runs are those over such events.
-/
import Veridie.Fsm.Controller
import Veridie.Dice.Exactness
import Veridie.Lib.Simulation

namespace Veridie.Fsm

open Veridie.Lib Veridie.Dice

/-! ## 1. Handlers -/

/-- `event::Handler`: the handler of the state that is called, unless the texts cannot be parsed. -/
abbrev Handler := List Str → Option Event

/-- The handler of an event about a device: "mac", "name". -/
def ofDevice (call : Device → Event) : Handler
  | mac :: name :: _ => if mac = [] then none else some (call ⟨name, mac⟩)
  | _ => none

/-- The handler of an event without arguments. -/
def ofNothing (call : Event) : Handler := fun _ => some call

def RemoteDeviceConnected.handle : Handler := ofDevice .deviceConnected

def RemoteDeviceDisconnected.handle : Handler := ofDevice .deviceDisconnected

def ConnectivityEstablished.handle : Handler := ofNothing .connectivityEstablished

def NewGameRequested.handle : Handler := ofNothing .newGame

/-- "message", "mac", "name"; the MAC is not checked. -/
def MessageReceived.handle : Handler
  | message :: mac :: name :: _ => some (.messageReceived ⟨name, mac⟩ message)
  | _ => none

/-- A conversion from `int` to `uint32_t`. -/
def ofInt (n : Int) : UInt32 := UInt32.ofNat (n % 2 ^ 32).toNat

/-- The `try` block of `CastRequestIssued::Handle`: a threshold is read when it is the last text. -/
def CastRequestIssued.parse (type size : Str) (rest : List Str) : Eval Request := do
  let size ← stoul size
  let cast ← makeCast type size.toNat
  match rest with
  | [threshold] => do
    let threshold ← stoi threshold
    .ok ⟨cast, some (ofInt threshold)⟩
  | _ => .ok ⟨cast, none⟩

/-- "type", "size", "threshold". -/
def CastRequestIssued.handle : Handler
  | type :: size :: rest =>
    match parse type size rest with
    | .ok request => some (.castRequest request)
    | .error _ => none
  | _ => none

def GameStopped.handle : Handler := ofNothing .gameStopped

def BluetoothOn.handle : Handler := ofNothing .bluetoothOn

def BluetoothOff.handle : Handler := ofNothing .bluetoothOff

def SocketReadFailed.handle : Handler := ofDevice .socketReadFailure

/-- `event::Dictionary`: `ID` and `Handle`. -/
def dictionary : List (Int × Handler) :=
  [(10, RemoteDeviceConnected.handle), (11, RemoteDeviceDisconnected.handle),
    (12, ConnectivityEstablished.handle), (13, NewGameRequested.handle),
    (14, MessageReceived.handle), (15, CastRequestIssued.handle), (16, GameStopped.handle),
    (17, BluetoothOn.handle), (18, BluetoothOff.handle), (19, SocketReadFailed.handle)]

/-- `m_eventHandlers.find`. -/
def findHandler (eventId : Int) : Option Handler :=
  (dictionary.find? (·.1 = eventId)).map Prod.snd

/-! ## 2. `OnEvent` -/

/-- The errors that `OnEvent` logs. -/
inductive EventError where
  | notFound (eventId : Int)
  | noState
  | badArgs
  deriving DecidableEq, Repr

def EventError.text : EventError → Str
  | notFound eventId =>
    "Event handler not found, id=".toList ++
      (if eventId < 0 then '-' :: toString eventId.natAbs else toString eventId.natAbs)
  | noState => "OnEvent: no state".toList
  | badArgs => "Could not parse event args".toList

/-- `OnEvent`. -/
def Controller.onEvent (ser : ISerializer) (c : Controller) (eventId : Int) (args : List Str)
    (roll : Roll) : Except EventError (Controller × List Trace) :=
  match findHandler eventId with
  | none => .error (.notFound eventId)
  | some handler =>
    match c.state with
    | none => .error .noState
    | some _ =>
      match handler args with
      | none => .error .badArgs
      | some e => .ok (c.handle ser (.event e roll))

/-- What can happen to the controller, as Java sees it. -/
inductive JavaInput where
  | start
  | event (eventId : Int) (args : List Str) (roll : Roll)
  | resume (i : Resume)
  | fire

/-- The controller as Java sees it. -/
def javaController (ser : ISerializer) : Machine Controller JavaInput Trace where
  step c i :=
    match i with
    | .start => c.start
    | .event eventId args roll =>
      match c.onEvent ser eventId args roll with
      | .ok after => after
      | .error _ => (c, [])
    | .resume i => c.handle ser (.resume i)
    | .fire => c.fire ser

/-! ## 3. The texts of an event -/

/-- A `uint32_t` as the `int` that converts to it. -/
def intText (n : UInt32) : Str :=
  if n.toNat < 2 ^ 31 then toString n.toNat else '-' :: toString (2 ^ 32 - n.toNat)

/-- The number of an event. -/
def Event.id : Event → Int
  | deviceConnected _ => 10
  | deviceDisconnected _ => 11
  | connectivityEstablished => 12
  | newGame => 13
  | messageReceived _ _ => 14
  | castRequest _ => 15
  | gameStopped => 16
  | bluetoothOn => 17
  | bluetoothOff => 18
  | socketReadFailure _ => 19

/-- Its texts. -/
def Event.args : Event → List Str
  | deviceConnected remote => [remote.mac, remote.name]
  | deviceDisconnected remote => [remote.mac, remote.name]
  | messageReceived sender message => [message, sender.mac, sender.name]
  | castRequest r =>
    [typeToString r.cast.die, toString r.cast.values.length] ++ (r.threshold.map intText).toList
  | socketReadFailure transmitter => [transmitter.mac, transmitter.name]
  | _ => []

/-- The events that can be handed to a state: a device that connects, disconnects or fails has a MAC,
    and no die of a request has been rolled. The sender of a message may be without a MAC. -/
def Event.Received : Event → Prop
  | deviceConnected remote => remote.mac ≠ []
  | deviceDisconnected remote => remote.mac ≠ []
  | castRequest r => r.cast.Unrolled
  | socketReadFailure transmitter => transmitter.mac ≠ []
  | _ => True

/-- `stoi` reads a minus sign. -/
theorem stoi_minus {n : Nat} (h : n ≤ 2 ^ 31) : stoi ('-' :: toString n) = .ok (-(n : Int)) := by
  have hscan : scanNumeral ('-' :: toString n) = ⟨true, toString n⟩ := by
    have hspace : ('-' :: toString n).dropWhile Veridie.Xml.isSpace = '-' :: toString n :=
      List.dropWhile_cons_of_neg (by decide)
    have hdigits : (Dice.toString n).takeWhile Char.isDigit = Dice.toString n :=
      List.takeWhile_eq_self_iff.mpr fun _ => isDigit_toString
    simp only [scanNumeral, hspace, hdigits]
  have hvalue : (Numeral.mk true (toString n)).value = -(n : Int) := by
    simp only [Numeral.value, magnitude_toString]
    rfl
  unfold stoi
  simp only [hscan, hvalue]
  rw [if_neg (toString_ne_nil n), if_neg (by omega)]

/-- `stoi` reads the text of a threshold. -/
theorem stoi_intText (n : UInt32) : ∃ i, stoi (intText n) = .ok i ∧ ofInt i = n := by
  have hlt : n.toNat < 2 ^ 32 := n.toNat_lt
  unfold intText
  by_cases h : n.toNat < 2 ^ 31
  · rw [if_pos h]
    refine ⟨n.toNat, stoi_toString h, ?_⟩
    have hmod : ((n.toNat : Int) % 2 ^ 32).toNat = n.toNat := by omega
    rw [ofInt, hmod, UInt32.ofNat_toNat]
  · rw [if_neg h]
    refine ⟨_, stoi_minus (by omega), ?_⟩
    have hmod : (-((2 ^ 32 - n.toNat : Nat) : Int) % 2 ^ 32).toNat = n.toNat := by omega
    rw [ofInt, hmod, UInt32.ofNat_toNat]

/-- A number of dice as `stoul` reads it. -/
theorem size_toNat (c : Cast) : (UInt64.ofNat c.values.length).toNat = c.values.length := by
  have hle := c.size_le
  have hmax : maxSize < 2 ^ 64 := by decide
  exact UInt64.toNat_ofNat_of_lt' (by show _ < 2 ^ 64; omega)

/-- The texts of a request are read back. -/
theorem castRequest_handle (r : Request) (h : r.cast.Unrolled) :
    CastRequestIssued.handle (Event.castRequest r).args = some (.castRequest r) := by
  have hsize : stoul (toString r.cast.values.length) = .ok (UInt64.ofNat r.cast.values.length) := by
    have hle := r.cast.size_le
    have hmax : maxSize < 2 ^ 64 := by decide
    exact stoul_toString (by omega)
  have hcast : makeCast (typeToString r.cast.die) (UInt64.ofNat r.cast.values.length).toNat =
      .ok r.cast := by
    rw [size_toNat, makeCast_typeToString, newDice_unrolled h]
  obtain ⟨cast, threshold⟩ := r
  cases threshold with
  | none =>
    show (match CastRequestIssued.parse _ _ [] with
      | .ok request => some (Event.castRequest request)
      | .error _ => none) = _
    simp only [CastRequestIssued.parse, hsize, hcast, ok_bind]
  | some n =>
    obtain ⟨i, hi, hn⟩ := stoi_intText n
    show (match CastRequestIssued.parse _ _ [intText n] with
      | .ok request => some (Event.castRequest request)
      | .error _ => none) = _
    simp only [CastRequestIssued.parse, hsize, hcast, hi, ok_bind, hn]

/-- **Each event can be sent.** -/
theorem handler_args {e : Event} (h : e.Received) :
    ∃ handler, findHandler e.id = some handler ∧ handler e.args = some e := by
  cases e with
  | deviceConnected remote => exact ⟨RemoteDeviceConnected.handle, rfl, if_neg h⟩
  | deviceDisconnected remote => exact ⟨RemoteDeviceDisconnected.handle, rfl, if_neg h⟩
  | socketReadFailure transmitter => exact ⟨SocketReadFailed.handle, rfl, if_neg h⟩
  | castRequest r => exact ⟨CastRequestIssued.handle, rfl, castRequest_handle r h⟩
  | messageReceived sender message => exact ⟨MessageReceived.handle, rfl, rfl⟩
  | connectivityEstablished => exact ⟨ConnectivityEstablished.handle, rfl, rfl⟩
  | newGame => exact ⟨NewGameRequested.handle, rfl, rfl⟩
  | gameStopped => exact ⟨GameStopped.handle, rfl, rfl⟩
  | bluetoothOn => exact ⟨BluetoothOn.handle, rfl, rfl⟩
  | bluetoothOff => exact ⟨BluetoothOff.handle, rfl, rfl⟩

/-! ## 4. What gets through -/

/-- `MakeCast` rolls no die. -/
theorem makeCast_unrolled {type : Str} {size : Nat} {cast : Cast}
    (h : makeCast type size = .ok cast) : cast.Unrolled := by
  have hdice : ∀ die, newDice die size = .ok cast → cast.Unrolled := by
    intro die hdie
    unfold newDice at hdie
    by_cases hsize : size ≤ maxSize
    · rw [dif_pos hsize] at hdie
      cases hdie
      show List.replicate size 0 = List.replicate (List.replicate size (0 : UInt32)).length 0
      rw [List.length_replicate]
    · rw [dif_neg hsize] at hdie
      cases hdie
  unfold makeCast at h
  iterate 8 (split at h; · exact hdice _ h)
  cases h

theorem ofDevice_some {call : Device → Event} {args : List Str} {e : Event}
    (h : ofDevice call args = some e) : ∃ remote, remote.mac ≠ [] ∧ e = call remote := by
  unfold ofDevice at h
  split at h
  · rename_i mac name _
    by_cases hmac : mac = []
    · rw [if_pos hmac] at h
      cases h
    · rw [if_neg hmac] at h
      exact ⟨⟨name, mac⟩, hmac, (Option.some.inj h).symm⟩
  · cases h

theorem messageReceived_some {args : List Str} {e : Event} (h : MessageReceived.handle args = some e) :
    ∃ sender message, e = .messageReceived sender message := by
  unfold MessageReceived.handle at h
  split at h
  · rename_i message mac name _
    exact ⟨⟨name, mac⟩, message, (Option.some.inj h).symm⟩
  · cases h

theorem castRequest_some {args : List Str} {e : Event}
    (h : CastRequestIssued.handle args = some e) : ∃ r, r.cast.Unrolled ∧ e = .castRequest r := by
  unfold CastRequestIssued.handle at h
  split at h
  · rename_i type size rest
    cases hparse : CastRequestIssued.parse type size rest with
    | error stop =>
      rw [hparse] at h
      cases h
    | ok r =>
      rw [hparse] at h
      refine ⟨r, ?_, (Option.some.inj h).symm⟩
      rw [CastRequestIssued.parse] at hparse
      obtain ⟨size', _, hparse⟩ := bind_eq_ok hparse
      obtain ⟨cast, hcast, hparse⟩ := bind_eq_ok hparse
      have hsame : r.cast = cast := by
        split at hparse
        · obtain ⟨threshold, _, hparse⟩ := bind_eq_ok hparse
          cases hparse
          rfl
        · cases hparse
          rfl
      rw [hsame]
      exact makeCast_unrolled hcast
  · cases h

/-- **Nothing else gets through**: what a handler is given to is an event that can be sent. -/
theorem received_of_handler {eventId : Int} {handler : Handler} {args : List Str} {e : Event}
    (hfind : findHandler eventId = some handler) (h : handler args = some e) : e.Received := by
  obtain ⟨⟨id, found⟩, hmem, rfl⟩ := Option.map_eq_some_iff.mp hfind
  have hin : (id, found) ∈ dictionary := List.mem_of_find?_eq_some hmem
  simp only [dictionary, List.mem_cons, Prod.mk.injEq, List.not_mem_nil, or_false] at hin
  rcases hin with ⟨_, rfl⟩ | ⟨_, rfl⟩ | ⟨_, rfl⟩ | ⟨_, rfl⟩ | ⟨_, rfl⟩ | ⟨_, rfl⟩ | ⟨_, rfl⟩ |
    ⟨_, rfl⟩ | ⟨_, rfl⟩ | ⟨_, rfl⟩
  · obtain ⟨remote, hmac, rfl⟩ := ofDevice_some h
    exact hmac
  · obtain ⟨remote, hmac, rfl⟩ := ofDevice_some h
    exact hmac
  · cases h
    trivial
  · cases h
    trivial
  · obtain ⟨sender, message, rfl⟩ := messageReceived_some h
    trivial
  · obtain ⟨r, hr, rfl⟩ := castRequest_some h
    exact hr
  · cases h
    trivial
  · cases h
    trivial
  · cases h
    trivial
  · obtain ⟨remote, hmac, rfl⟩ := ofDevice_some h
    exact hmac

/-! ## 5. The controller and Java -/

/-- The event that is handed to the state. -/
def Controller.handed (c : Controller) (eventId : Int) (args : List Str) : Option Event :=
  (findHandler eventId).bind fun handler => c.state.bind fun _ => handler args

theorem onEvent_eq (ser : ISerializer) (c : Controller) (eventId : Int) (args : List Str)
    (roll : Roll) {e : Event} (h : c.handed eventId args = some e) :
    c.onEvent ser eventId args roll = .ok (c.handle ser (.event e roll)) := by
  obtain ⟨handler, hfind, h⟩ := Option.bind_eq_some_iff.mp h
  obtain ⟨s, hs, h⟩ := Option.bind_eq_some_iff.mp h
  simp only [Controller.onEvent, hfind, hs, h]

theorem onEvent_error (ser : ISerializer) (c : Controller) (eventId : Int) (args : List Str)
    (roll : Roll) (h : c.handed eventId args = none) :
    ∃ error, c.onEvent ser eventId args roll = .error error := by
  unfold Controller.onEvent
  cases hfind : findHandler eventId with
  | none => exact ⟨_, rfl⟩
  | some handler =>
    cases hs : c.state with
    | none => exact ⟨_, rfl⟩
    | some s =>
      cases hargs : handler args with
      | none =>
        refine ⟨.badArgs, ?_⟩
        simp only [hargs]
      | some e =>
        simp only [Controller.handed, hfind, hs, hargs, Option.bind_some] at h
        cases h

theorem received_of_handed {c : Controller} {eventId : Int} {args : List Str} {e : Event}
    (h : c.handed eventId args = some e) : e.Received := by
  obtain ⟨handler, hfind, h⟩ := Option.bind_eq_some_iff.mp h
  obtain ⟨_, _, h⟩ := Option.bind_eq_some_iff.mp h
  exact received_of_handler hfind h

/-- An input of the controller that Java can cause. -/
def ControllerInput.Received : ControllerInput → Prop
  | event e _ => e.Received
  | _ => True

/-- What the controller does when Java does something. -/
def JavaInput.inputs (c : Controller) : JavaInput → List ControllerInput
  | start => [.start]
  | event eventId args roll => (c.handed eventId args).toList.map (.event · roll)
  | resume i => [.resume i]
  | fire => [.fire]

theorem javaController_step (ser : ISerializer) (c : Controller) (i : JavaInput) :
    (javaController ser).step c i =
      ((controller ser).exec c (i.inputs c), (controller ser).outs c (i.inputs c)) := by
  cases i with
  | start => exact congrArg (Prod.mk _) (List.append_nil _).symm
  | resume i => exact congrArg (Prod.mk _) (List.append_nil _).symm
  | fire => exact congrArg (Prod.mk _) (List.append_nil _).symm
  | event eventId args roll =>
    simp only [javaController, JavaInput.inputs]
    cases hhanded : c.handed eventId args with
    | none =>
      obtain ⟨error, herror⟩ := onEvent_error ser c eventId args roll hhanded
      rw [herror]
      rfl
    | some e =>
      rw [onEvent_eq ser c eventId args roll hhanded]
      exact congrArg (Prod.mk _) (List.append_nil _).symm

/-- The controller follows what Java does. -/
def javaSimulation (ser : ISerializer) : Simulation (javaController ser) (controller ser) some where
  related c c' := c = c'
  input c i := i.inputs c
  exec i h := by
    subst h
    rw [javaController_step]
  outs i h := by
    subst h
    rw [javaController_step, List.filterMap_some]

theorem received_inputs (c : Controller) (i : JavaInput) : ∀ j ∈ i.inputs c, j.Received := by
  cases i with
  | start => exact List.forall_mem_singleton.mpr trivial
  | resume i => exact List.forall_mem_singleton.mpr trivial
  | fire => exact List.forall_mem_singleton.mpr trivial
  | event eventId args roll =>
    intro j hj
    obtain ⟨e, he, rfl⟩ := List.mem_map.mp hj
    exact received_of_handed (Option.mem_toList.mp he)

/-- What Java does for an input of the controller. -/
def ControllerInput.java : ControllerInput → JavaInput
  | start => .start
  | event e roll => .event e.id e.args roll
  | resume i => .resume i
  | fire => .fire

/-- A controller without a state does nothing with an event. -/
theorem javaController_java (ser : ISerializer) (c : Controller) {j : ControllerInput}
    (h : j.Received) : (javaController ser).step c j.java = (controller ser).step c j := by
  cases j with
  | start => rfl
  | resume i => rfl
  | fire => rfl
  | event e roll =>
    obtain ⟨handler, hfind, hargs⟩ := handler_args h
    show (match c.onEvent ser e.id e.args roll with
      | .ok after => after
      | .error _ => (c, [])) = c.handle ser (.event e roll)
    cases hs : c.state with
    | none => simp only [Controller.onEvent, Controller.handle, hfind, hs]
    | some s => simp only [Controller.onEvent, hfind, hs, hargs]

/-- An event that the controller refuses changes nothing. -/
theorem javaController_refused (ser : ISerializer) {c : Controller} {eventId : Int}
    {args : List Str} (roll : Roll) (h : c.handed eventId args = none) :
    (javaController ser).step c (.event eventId args roll) = (c, []) := by
  rw [javaController_step]
  simp only [JavaInput.inputs, h]
  rfl

/-- What the controller does in a run when Java does something. -/
def javaInputs (ser : ISerializer) (c : Controller) (is : List JavaInput) : List ControllerInput :=
  (javaSimulation ser).inputs c is

/-- **Events from Java**: whatever numbers and texts Java sends, the controller does what it does on
    the events that are handed to its state, and each of them can be received. Whatever it does on
    events that can be received can be brought about by numbers and texts. An event with an unknown
    number, with texts that are not parsed, or before the first state changes nothing. -/
theorem events_exactly (ser : ISerializer) (c : Controller) :
    (∀ is, (javaController ser).exec c is = (controller ser).exec c (javaInputs ser c is) ∧
      (javaController ser).outs c is = (controller ser).outs c (javaInputs ser c is) ∧
      ∀ j ∈ javaInputs ser c is, j.Received) ∧
    (∀ js, (∀ j ∈ js, j.Received) →
      (javaController ser).exec c (js.map ControllerInput.java) = (controller ser).exec c js ∧
      (javaController ser).outs c (js.map ControllerInput.java) = (controller ser).outs c js) ∧
    ∀ eventId args roll, (c.state = none ∨
        ∀ handler, findHandler eventId = some handler → handler args = none) →
      (javaController ser).step c (.event eventId args roll) = (c, []) := by
  refine ⟨fun is => ?_, fun js hjs => ?_, fun eventId args roll hrefused => ?_⟩
  · obtain ⟨hexec, houts⟩ := (javaSimulation ser).run (Eq.refl c) is
    rw [List.filterMap_some] at houts
    exact ⟨hexec, houts.symm, (javaSimulation ser).forall_inputs received_inputs c is⟩
  · induction js generalizing c with
    | nil => exact ⟨rfl, rfl⟩
    | cons j js ih =>
      obtain ⟨hj, hjs⟩ := List.forall_mem_cons.mp hjs
      have hstep := javaController_java ser c hj
      obtain ⟨hexec, houts⟩ := ih ((controller ser).step c j).1 hjs
      refine ⟨?_, ?_⟩
      · rw [List.map_cons, Machine.exec_cons, hstep, hexec, Machine.exec_cons]
      · rw [List.map_cons, Machine.outs_cons, hstep, houts, Machine.outs_cons]
  · refine javaController_refused ser roll ?_
    unfold Controller.handed
    cases hfind : findHandler eventId with
    | none => rfl
    | some handler =>
      rcases hrefused with hstate | hargs
      · rw [hstate]
        rfl
      · cases c.state with
        | none => rfl
        | some s => exact hargs handler hfind

end Veridie.Fsm
