/-
  File:      Veridie/Sign/Commands.lean
  Subject:   The commands the states issue (sign/commands.hpp), with their arguments, and the answers
             they get (`ICommand::ResponseCode`).
-/
import Veridie.Dice.Cast

namespace Veridie.Sign

open Veridie.Dice

/-- The commands, each with the arguments its constructor is given. -/
inductive Cmd where
  | startListening
  | startDiscovery
  | stopListening
  | stopDiscovery
  | closeConnection (errorMsg mac : Str)
  | enableBluetooth
  | negotiationStart
  | negotiationStop (nominee : Str)
  | sendMessage (message mac : Str)
  | sendLongMessage (message mac : Str)
  | showAndExit (text : Str)
  | showToast (text : Str) (seconds : Nat)
  | showRequest (type : Str) (size : Nat) (threshold : UInt32) (name : Str)
  | showResponse (cast : Cast) (type : Str) (successCount : Int) (name : Str)
  | showLongResponse (cast : Cast) (type : Str) (successCount : Int) (name : Str)
  | resetGame
  | resetConnections
  deriving DecidableEq

/-- Whether a command is issued by `Command`, which awaits it, or by `FireAndForget`; the
    `CloseConnection` of a destructor has a text. -/
def Cmd.awaited : Cmd → Bool
  | startListening | startDiscovery | enableBluetooth | negotiationStart => true
  | sendMessage _ _ | sendLongMessage _ _ => true
  | showRequest _ _ _ _ | showResponse _ _ _ _ | showLongResponse _ _ _ _ => true
  | closeConnection errorMsg _ => errorMsg = []
  | _ => false

/-- `ICommand::ResponseCode`; `other` is a number that is none of the codes. -/
inductive ResponseCode where
  | ok
  | invalidState
  | interopFailure
  | bluetoothOff
  | listenFailed
  | connectionNotFound
  | noBtAdapter
  | userDeclined
  | socketError
  | other
  deriving DecidableEq, Repr

/-- `SendMessage::MAX_BUFFER_SIZE`. -/
def sendMessageMax : Nat := 255

/-- `SendLongMessage::MAX_BUFFER_SIZE`. -/
def sendLongMessageMax : Nat := 1023

/-- `ShowResponse::MAX_BUFFER_SIZE`. -/
def showResponseMax : Nat := 255

/-- `ShowLongResponse::MAX_BUFFER_SIZE`. -/
def showLongResponseMax : Nat := 1023

end Veridie.Sign
