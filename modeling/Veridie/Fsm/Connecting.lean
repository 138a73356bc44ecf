/-
  File:      Veridie/Fsm/Connecting.lean
  Subject:   `StateConnecting` (fsm/stateconnecting.cpp): discovery and listening, the greeting of
             each peer, and the start of the negotiation once a greeting has told the local MAC.
-/
import Veridie.Fsm.Context
import Veridie.Dice.Serializer

namespace Veridie.Fsm

open Veridie.Lib Veridie.Dice Veridie.Sign

/-- Where `KickOffDiscovery` and `KickOffListening` wait, with `retriesLeft`. -/
inductive KickOffTask where
  | asking (retriesLeft : Nat)
  | waiting (retriesLeft : Nat)
  deriving DecidableEq, Repr

/-- A `SendHelloTo` that waits for its `SendMessage`, or for its `DisconnectDevice`. -/
structure HelloTask where
  mac : Str
  retriesLeft : Nat
  closing : Bool
  deriving DecidableEq, Repr

/-- `StateConnecting`; `retryStart` is the `retriesLeft` of an `AttemptNegotiationStart` that waits
    for its timer. -/
structure StateConnecting where
  discovering : Option Bool
  listening : Option Bool
  localMac : Option Str
  peers : Peers
  retryStart : Option Nat
  discovery : Option KickOffTask
  listen : Option KickOffTask
  hellos : List HelloTask
  closes : List Str

/-- The answers and timers the state waits for; the coroutines of one kind are told apart by their
    position. -/
inductive ConnectingResume where
  | discovery (r : ResponseCode)
  | discoveryTick
  | listening (r : ResponseCode)
  | listeningTick
  | hello (i : Nat) (r : ResponseCode)
  | close (i : Nat) (r : ResponseCode)
  | retryTick

namespace StateConnecting

/-- `MAX_SEND_RETRY_COUNT`. -/
def maxSendRetryCount : Nat := 10

/-- `MAX_GAME_START_RETRY_COUNT`. -/
def maxGameStartRetryCount : Nat := 30

/-- `MAX_DISCOVERY_RETRY_COUNT`. -/
def maxDiscoveryRetryCount : Nat := 2

/-- `MAX_LISTENING_RETRY_COUNT`. -/
def maxListeningRetryCount : Nat := 2

/-- The constructor. -/
def construct : StateConnecting × List Out :=
  (⟨none, none, none, KeySet.empty, none, some (.asking maxDiscoveryRetryCount),
    some (.asking maxListeningRetryCount), [], []⟩, [.issue .startDiscovery, .issue .startListening])

/-- The destructor. -/
def destroy (s : StateConnecting) : List Out :=
  (if s.discovering.getD false then [.issue .stopDiscovery] else []) ++
  (if s.listening.getD false then [.issue .stopListening] else [])

/-- `OnBluetoothOff`. -/
def onBluetoothOff : List Out := [.switch (.idle true)]

/-- `DetectFatalFailure`. -/
def detectFatalFailure (s : StateConnecting) : List Out :=
  if s.listening = some false ∧ s.discovering = some false then
    [.issue (.showAndExit "Cannot proceed due to a fatal failure.".toList), .switch .empty]
  else []

/-- `SendHelloTo` from the head of its loop. -/
def sendHello (ser : ISerializer) (s : StateConnecting) (mac : Str) (retriesLeft : Nat) :
    StateConnecting × List Out :=
  if mac ∈ s.peers.keys then
    ({ s with hellos := s.hellos ++ [⟨mac, retriesLeft, false⟩] },
      [.issue (.sendMessage (ser.serializeHello ⟨mac⟩) mac)])
  else (s, [])

/-- `OnDeviceConnected`. -/
def onDeviceConnected (ser : ISerializer) (s : StateConnecting) (remote : Device) :
    StateConnecting × List Out :=
  sendHello ser { s with peers := s.peers.insert remote } remote.mac maxSendRetryCount

/-- `OnMessageReceived`. -/
def onMessageReceived (ser : ISerializer) (s : StateConnecting) (sender : Device) (message : Str) :
    StateConnecting × List Out :=
  let (s, o) := if sender.mac ∈ s.peers.keys then (s, []) else onDeviceConnected ser s sender
  if s.localMac.isSome then (s, o)
  else
    match ser.deserialize message with
    | .ok (.hello hello) => ({ s with localMac := some hello.mac }, o)
    | .error (.ub u) => (s, o ++ [.undefined u])
    | _ => (s, o)

/-- `OnSocketReadFailure`. -/
def onSocketReadFailure (s : StateConnecting) (from' : Device) : StateConnecting × List Out :=
  if from'.mac ∈ s.peers.keys then
    ({ s with peers := s.peers.erase from'.mac, closes := s.closes ++ [from'.mac] },
      [.issue (.closeConnection [] from'.mac)])
  else (s, [])

/-- `AttemptNegotiationStart` from the head of its loop; what is moved out is left empty. -/
def attemptNegotiationStart (s : StateConnecting) (retriesLeft : Nat) : StateConnecting × List Out :=
  match s.localMac with
  | some localMac =>
    ({ s with peers := KeySet.empty, localMac := some [], retryStart := none },
      [.resizePool s.peers.elems.length, .switch (.negotiating s.peers localMac)])
  | none =>
    ({ s with retryStart := some retriesLeft },
      if retriesLeft % 3 = 0 then [.issue (.showToast "Getting ready...".toList 3)] else [])

/-- `OnConnectivityEstablished`. -/
def onConnectivityEstablished (s : StateConnecting) : StateConnecting × List Out :=
  if s.retryStart.isSome then (s, []) else s.attemptNegotiationStart maxGameStartRetryCount

/-- `OnGameStopped`. -/
def onGameStopped : List Out := [.issue .resetConnections, .switch (.idle false)]

/-- The handlers `StateConnecting` overrides. -/
def onEvent (ser : ISerializer) (s : StateConnecting) : Event → StateConnecting × List Out
  | .bluetoothOff => (s, onBluetoothOff)
  | .deviceConnected remote => onDeviceConnected ser s remote
  | .deviceDisconnected remote => ({ s with peers := s.peers.erase remote.mac }, [])
  | .messageReceived sender message => onMessageReceived ser s sender message
  | .socketReadFailure from' => s.onSocketReadFailure from'
  | .connectivityEstablished => s.onConnectivityEstablished
  | .gameStopped => (s, onGameStopped)
  | _ => (s, [])

/-- `KickOffDiscovery` behind its command. -/
def onDiscoveryAnswer (s : StateConnecting) (retriesLeft : Nat) :
    ResponseCode → StateConnecting × List Out
  | .ok => ({ s with discovering := some true, discovery := none }, [])
  | .bluetoothOff => ({ s with discovery := none }, onBluetoothOff)
  | .invalidState => ({ s with discovery := some (.waiting retriesLeft) }, [])
  | _ => ({ s with discovering := some false, discovery := none }, [])

/-- `KickOffDiscovery` behind its timer: the last attempt has been made when none is left. -/
def onDiscoveryTick (s : StateConnecting) (retriesLeft : Nat) : StateConnecting × List Out :=
  if 0 < retriesLeft then
    ({ s with discovery := some (.asking (retriesLeft - 1)) }, [.issue .startDiscovery])
  else
    let s := { s with discovering := some false, discovery := none }
    (s, s.detectFatalFailure)

/-- `KickOffListening` behind its command. -/
def onListeningAnswer (s : StateConnecting) (retriesLeft : Nat) :
    ResponseCode → StateConnecting × List Out
  | .ok => ({ s with listening := some true, listen := none }, [])
  | .bluetoothOff => ({ s with listen := none }, onBluetoothOff)
  | .userDeclined =>
    let s := { s with listening := some false, listen := none }
    (s, s.detectFatalFailure)
  | _ => ({ s with listen := some (.waiting retriesLeft) }, [])

/-- `KickOffListening` behind its timer. -/
def onListeningTick (s : StateConnecting) (retriesLeft : Nat) : StateConnecting × List Out :=
  if 0 < retriesLeft then
    ({ s with listen := some (.asking (retriesLeft - 1)) }, [.issue .startListening])
  else
    let s := { s with listening := some false, listen := none }
    (s, s.detectFatalFailure)

/-- `SendHelloTo` behind its command, or behind the `DisconnectDevice` it waits for. -/
def onHelloAnswer (ser : ISerializer) (s : StateConnecting) (i : Nat) (r : ResponseCode) :
    StateConnecting × List Out :=
  match s.hellos[i]? with
  | none => (s, [])
  | some task =>
    let rest := { s with hellos := s.hellos.eraseIdx i }
    if task.closing then
      if r = .invalidState then (s, [.issue (.closeConnection [] task.mac)]) else (rest, [])
    else
      match r with
      | .connectionNotFound => ({ rest with peers := rest.peers.erase task.mac }, [])
      | .socketError =>
        ({ rest with
            peers := rest.peers.erase task.mac
            hellos := rest.hellos ++ [{ task with closing := true }] },
          [.issue (.closeConnection [] task.mac)])
      | .invalidState =>
        if 0 < task.retriesLeft - 1 then sendHello ser rest task.mac (task.retriesLeft - 1)
        else (rest, [])
      | _ => (rest, [])

/-- `DisconnectDevice` behind its command. -/
def onCloseAnswer (s : StateConnecting) (i : Nat) (r : ResponseCode) : StateConnecting × List Out :=
  match s.closes[i]? with
  | none => (s, [])
  | some mac =>
    if r = .invalidState then (s, [.issue (.closeConnection [] mac)])
    else ({ s with closes := s.closes.eraseIdx i }, [])

/-- `AttemptNegotiationStart` behind its timer. -/
def onRetryTick (s : StateConnecting) (retriesLeft : Nat) : StateConnecting × List Out :=
  if 0 < retriesLeft - 1 then s.attemptNegotiationStart (retriesLeft - 1)
  else ({ s with retryStart := none },
    [.issue .resetGame, .issue .resetConnections, .switch (.idle false)])

/-- The coroutines behind what they wait for. -/
def resume (ser : ISerializer) (s : StateConnecting) (i : ConnectingResume) :
    StateConnecting × List Out :=
  match i with
  | .discovery r =>
    match s.discovery with
    | some (.asking retriesLeft) => s.onDiscoveryAnswer retriesLeft r
    | _ => (s, [])
  | .discoveryTick =>
    match s.discovery with
    | some (.waiting retriesLeft) => s.onDiscoveryTick retriesLeft
    | _ => (s, [])
  | .listening r =>
    match s.listen with
    | some (.asking retriesLeft) => s.onListeningAnswer retriesLeft r
    | _ => (s, [])
  | .listeningTick =>
    match s.listen with
    | some (.waiting retriesLeft) => s.onListeningTick retriesLeft
    | _ => (s, [])
  | .hello i r => onHelloAnswer ser s i r
  | .close i r => s.onCloseAnswer i r
  | .retryTick =>
    match s.retryStart with
    | some retriesLeft => s.onRetryTick retriesLeft
    | none => (s, [])

end StateConnecting

end Veridie.Fsm
