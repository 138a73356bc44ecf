/-
  File:      Veridie/Fsm/Idle.lean
  Subject:   `StateIdle` (fsm/stateidle.cpp): ask for Bluetooth until it is on, then look for peers
             when a game was requested.
-/
import Veridie.Fsm.Context

namespace Veridie.Fsm

open Veridie.Sign

/-- Where `RequestBluetoothOn` waits. -/
inductive EnableTask where
  /-- for the answer of `EnableBluetooth` -/
  | asking
  /-- for the timer before the next attempt -/
  | waiting
  deriving DecidableEq, Repr

/-- `StateIdle`; `enableBtTask` is `none` when the coroutine has ended or was never started. -/
structure StateIdle where
  enableBtTask : Option EnableTask
  newGamePending : Bool
  bluetoothOn : Bool
  deriving DecidableEq, Repr

/-- The answers and timers the state waits for. -/
inductive IdleResume where
  | enable (r : ResponseCode)
  | tick

namespace StateIdle

/-- `RequestBluetoothOn` from the head of its loop. -/
def requestBluetoothOn (s : StateIdle) : StateIdle × List Out :=
  if s.bluetoothOn then ({ s with enableBtTask := none }, [])
  else ({ s with enableBtTask := some .asking }, [.issue .enableBluetooth])

/-- `OnNewGame`. -/
def onNewGame (s : StateIdle) : StateIdle × List Out :=
  let s := { s with newGamePending := true }
  if s.bluetoothOn then (s, [.switch .connecting])
  else if s.enableBtTask.isNone then s.requestBluetoothOn
  else (s, [])

/-- The constructor. -/
def construct (startNewGame : Bool) : StateIdle × List Out :=
  let (s, o) := requestBluetoothOn ⟨none, false, false⟩
  if startNewGame then
    let (s, o') := s.onNewGame
    (s, o ++ [.shrinkPool] ++ o')
  else (s, o ++ [.shrinkPool])

/-- `OnBluetoothOn`; a coroutine still waiting is cancelled. -/
def onBluetoothOn (s : StateIdle) : StateIdle × List Out :=
  let s := { s with bluetoothOn := true, enableBtTask := none }
  (s, if s.newGamePending then [.switch .connecting] else [])

/-- `OnBluetoothOff`. -/
def onBluetoothOff (s : StateIdle) : StateIdle × List Out :=
  let s := { s with bluetoothOn := false }
  if s.enableBtTask.isNone then s.requestBluetoothOn else (s, [])

/-- The handlers `StateIdle` overrides. -/
def onEvent (s : StateIdle) : Event → StateIdle × List Out
  | .bluetoothOn => s.onBluetoothOn
  | .bluetoothOff => s.onBluetoothOff
  | .newGame => s.onNewGame
  | _ => (s, [])

/-- `RequestBluetoothOn` behind its `co_await`. -/
def resume (s : StateIdle) (i : IdleResume) : StateIdle × List Out :=
  match s.enableBtTask, i with
  | some .asking, .enable r =>
    match r with
    | .interopFailure | .invalidState => ({ s with enableBtTask := some .waiting }, [])
    | .ok =>
      ({ s with bluetoothOn := true, enableBtTask := none },
        if s.newGamePending then [.switch .connecting] else [])
    | .noBtAdapter =>
      ({ s with enableBtTask := none },
        [.issue (.showAndExit "Cannot proceed due to a fatal failure.".toList), .switch .empty])
    | .userDeclined => ({ s with enableBtTask := none }, [])
    | _ => s.requestBluetoothOn
  | some .waiting, .tick => s.requestBluetoothOn
  | _, _ => (s, [])

end StateIdle

end Veridie.Fsm
