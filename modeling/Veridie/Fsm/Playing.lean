/-
  File:      Veridie/Fsm/Playing.lean
  Subject:   `StatePlaying` and its `RemotePeerManager`s (fsm/stateplaying.cpp): requests and
             responses sent to every peer with retries, the generator's answers, and the ways back
             to a negotiation.

  * `PeerState` -- what changes in a manager; `PeerState.send`, `PeerState.onSendAnswer`,
    `PeerState.onTick` -- `Send` and `SendRequestToGenerator`, from one suspension to the next;
  * `StatePlaying.onMessageReceived`, `StatePlaying.onCastRequest` -- the handlers;
  * `StatePlaying.startNegotiation`, `StatePlaying.startNegotiationWithOffer` -- the ways out;
  * `playing` -- the state over everything that can happen to it.
-/
import Veridie.Fsm.Context
import Veridie.Dice.Serializer

namespace Veridie.Fsm

open Veridie.Lib Veridie.Dice Veridie.Sign

/-! ## 1. Managers -/

/-- `RETRY_COUNT`. -/
def retryCount : Nat := 5

/-- `REQUEST_ATTEMPTS`. -/
def requestAttempts : Nat := 3

/-- `ROUNDS_PER_GENERATOR`. -/
def roundsPerGenerator : UInt32 := 10

/-- A `SendRequestToGenerator`, with its counter. -/
structure RequestTask where
  request : Str
  attempt : Nat
  deriving DecidableEq, Repr

/-- A coroutine of a manager. -/
inductive PeerTask where
  /-- a `Send` that waits for its answer, run by itself or by a `SendRequestToGenerator` -/
  | sending (message : Str) (retriesLeft : Nat) (parent : Option RequestTask)
  /-- a `SendRequestToGenerator` that waits for its timer -/
  | waiting (task : RequestTask)
  deriving DecidableEq, Repr

/-- What changes in a manager. -/
structure PeerState where
  pendingRequest : Bool
  connected : Bool
  queuedMessages : List Str
  tasks : List PeerTask
  deriving DecidableEq, Repr

/-- `RemotePeerManager`. -/
structure RemotePeerManager where
  remote : Device
  isGenerator : Bool
  st : PeerState
  deriving DecidableEq, Repr

/-- The key of `m_managers`. -/
def RemotePeerManager.mac (m : RemotePeerManager) : Str := m.remote.mac

/-- `std::unordered_map<std::string, RemotePeerManager>`. -/
abbrev Managers := KeySet RemotePeerManager.mac

/-- What a member function of a manager does: the new state, the commands, and whether it calls
    `m_renegotiate`. -/
structure Effect where
  st : PeerState
  outs : List Out
  renegotiate : Bool

/-- The command for a message of its size. -/
def sendCommand (message mac : Str) : Cmd :=
  if message.length ≤ sendMessageMax then .sendMessage message mac
  else .sendLongMessage message mac

namespace PeerState

/-- `Send` has returned: the request it was sent for waits for its timer. -/
def finish (p : PeerState) (parent : Option RequestTask) : PeerState :=
  match parent with
  | some task => { p with tasks := p.tasks ++ [.waiting task] }
  | none => p

/-- `Send` up to its first command. -/
def send (p : PeerState) (mac message : Str) (parent : Option RequestTask) :
    PeerState × List Out :=
  if sendLongMessageMax < message.length then
    (p.finish parent,
      [.issue (.showToast "Cannot send too long message, try fewer dices".toList 7)])
  else ({ p with tasks := p.tasks ++ [.sending message retryCount parent] },
    [.issue (sendCommand message mac)])

/-- The end of the loop of `Send`: once more while retries are left. -/
def retry (p : PeerState) (mac message : Str) (retriesLeft : Nat) (parent : Option RequestTask) :
    PeerState × List Out :=
  if 0 < retriesLeft - 1 then
    ({ p with tasks := p.tasks ++ [.sending message (retriesLeft - 1) parent] },
      [.issue (sendCommand message mac)])
  else (p.finish parent, [])

/-- `Send` behind its command. -/
def onAnswer (p : PeerState) (mac : Str) (isGenerator : Bool) (message : Str) (retriesLeft : Nat)
    (parent : Option RequestTask) (r : ResponseCode) : Effect :=
  match r with
  | .invalidState | .interopFailure =>
    let (p, o) := p.retry mac message retriesLeft parent
    ⟨p, o, false⟩
  | .ok =>
    let p := { p with connected := true }
    match p.queuedMessages.getLast? with
    | none => ⟨p.finish parent, [], false⟩
    | some queued =>
      let (p, o) := { p with queuedMessages := p.queuedMessages.dropLast }.retry mac queued
        (retryCount + 1) parent
      ⟨p, o, false⟩
  | _ =>
    let p := { p with connected := false, queuedMessages := p.queuedMessages ++ [message] }
    ⟨p.finish parent, [], isGenerator⟩

/-- The coroutine `i` behind its command. -/
def onSendAnswer (p : PeerState) (mac : Str) (isGenerator : Bool) (i : Nat) (r : ResponseCode) :
    Effect :=
  match p.tasks[i]? with
  | some (.sending message retriesLeft parent) =>
    { p with tasks := p.tasks.eraseIdx i }.onAnswer mac isGenerator message retriesLeft parent r
  | _ => ⟨p, [], false⟩

/-- The coroutine `i` behind its timer. -/
def onTick (p : PeerState) (mac : Str) (i : Nat) : Effect :=
  match p.tasks[i]? with
  | some (.waiting task) =>
    let p := { p with tasks := p.tasks.eraseIdx i }
    if p.pendingRequest then
      if 0 < task.attempt - 1 then
        let (p, o) := p.send mac task.request (some { task with attempt := task.attempt - 1 })
        ⟨p, o, false⟩
      else ⟨p, [], true⟩
    else ⟨p, [], false⟩
  | _ => ⟨p, [], false⟩

/-- `SendRequest`. -/
def sendRequest (p : PeerState) (mac : Str) (isGenerator : Bool) (request : Str) :
    PeerState × List Out :=
  { p with pendingRequest := true }.send mac request
    (if isGenerator then some ⟨request, requestAttempts⟩ else none)

/-- `SendResponse`. -/
def sendResponse (p : PeerState) (mac response : Str) : PeerState × List Out :=
  p.send mac response none

/-- `OnReceptionSuccess`. -/
def onReceptionSuccess (p : PeerState) (answeredRequest : Bool) : PeerState :=
  { p with
    connected := true
    pendingRequest := if answeredRequest then false else p.pendingRequest }

/-- `OnReceptionFailure`. -/
def onReceptionFailure (p : PeerState) (isGenerator : Bool) : Effect :=
  ⟨{ p with connected := false }, [], isGenerator⟩

end PeerState

/-- The destructor of a manager. -/
def RemotePeerManager.destroy (m : RemotePeerManager) : List Out :=
  if m.st.connected then []
  else [.issue (.closeConnection "Connection has been lost".toList m.mac)]

/-! ## 2. The state -/

/-- The command a `ShowRequest` or `ShowResponse` waits for. -/
inductive ShowTask where
  | request | response
  deriving DecidableEq, Repr

/-- `StatePlaying`; `ignoreOffers` holds until its timer has expired. -/
structure StatePlaying where
  localMac : Str
  localGenerator : Bool
  ignoreOffers : Bool
  pendingRequest : Option Request
  managers : Managers
  responseCount : UInt32
  shows : List ShowTask

/-- The answers and timers the state waits for. -/
inductive PlayingResume where
  | send (mac : Str) (i : Nat) (r : ResponseCode)
  | requestTick (mac : Str) (i : Nat)
  | show (i : Nat) (r : ResponseCode)
  | ignoreTick

/-- The conversion of an optional count to the argument of the command: `-1` for none, and the low
    32 bits as a signed number. -/
def successCountArg (count : Option UInt64) : Int :=
  match count with
  | none => -1
  | some n => (((n.toNat : Int) + 2 ^ 31) % 2 ^ 32) - 2 ^ 31

namespace StatePlaying

/-- The constructor. -/
def construct (peers : Peers) (localMac generatorMac : Str) : StatePlaying :=
  let localGenerator : Bool := localMac = generatorMac
  { localMac := localMac
    localGenerator := localGenerator
    ignoreOffers := true
    pendingRequest := none
    managers := ⟨peers.elems.map fun peer =>
      ⟨peer, !localGenerator && peer.mac = generatorMac, ⟨false, true, [], []⟩⟩, by
        rw [List.map_map]
        exact peers.nodup⟩
    responseCount := 0
    shows := [] }

/-- The destructors of the managers. -/
def destroyManagers (managers : Managers) : List Out :=
  managers.elems.flatMap RemotePeerManager.destroy

/-- The destructor. -/
def destroy (s : StatePlaying) : List Out := destroyManagers s.managers

/-- The devices of the connected managers. -/
def connectedPeers (s : StatePlaying) : Peers :=
  ⟨(s.managers.elems.filter fun m => m.st.connected).map RemotePeerManager.remote, by
    rw [List.map_map]
    exact s.managers.nodup.sublist (List.Sublist.map _ List.filter_sublist)⟩

/-- `StartNegotiation`. -/
def startNegotiation (s : StatePlaying) : List Out :=
  [.switch (.negotiating s.connectedPeers s.localMac)]

/-- `StartNegotiationWithOffer`: the managers go at once. -/
def startNegotiationWithOffer (s : StatePlaying) (sender : Device) (offer : Str) :
    StatePlaying × List Out :=
  ({ s with managers := KeySet.empty },
    destroyManagers s.managers ++
      [.switch (.negotiatingWithOffer s.connectedPeers s.localMac sender offer)])

/-- One manager replaced by what its member function leaves. -/
def setPeer (s : StatePlaying) (mac : Str) (st : PeerState) : StatePlaying :=
  { s with managers := s.managers.adjust mac (fun m => { m with st := st }) fun _ => rfl }

theorem mem_setPeer {s : StatePlaying} {mac : Str} {st : PeerState} {m : RemotePeerManager} :
    m ∈ (s.setPeer mac st).managers.elems ↔ (m ∈ s.managers.elems ∧ m.mac ≠ mac) ∨
      ∃ m' ∈ s.managers.elems, m'.mac = mac ∧ m = { m' with st := st } :=
  KeySet.mem_elems_adjust (fun m : RemotePeerManager => { m with st := st }) fun _ => rfl

theorem find?_setPeer_self {s : StatePlaying} {mac : Str} {m : RemotePeerManager} {st : PeerState}
    (h : s.managers.find? mac = some m) :
    (s.setPeer mac st).managers.find? mac = some { m with st := st } :=
  KeySet.find?_adjust_self (fun m : RemotePeerManager => { m with st := st }) (fun _ => rfl) h

theorem find?_setPeer_ne {s : StatePlaying} {mac x : Str} {st : PeerState} (h : x ≠ mac) :
    (s.setPeer mac st).managers.find? x = s.managers.find? x :=
  KeySet.find?_adjust_ne (fun m : RemotePeerManager => { m with st := st }) (fun _ => rfl) h

/-- A member function of one manager; it may call `StartNegotiation`, which sees the new state. -/
def onPeer (s : StatePlaying) (mac : Str) (f : RemotePeerManager → Effect) :
    StatePlaying × List Out :=
  match s.managers.find? mac with
  | none => (s, [])
  | some m =>
    let s' := s.setPeer mac (f m).st
    (s', (f m).outs ++ if (f m).renegotiate then s'.startNegotiation else [])

/-- A member function of every manager. -/
def onAllPeers (s : StatePlaying) (f : RemotePeerManager → PeerState × List Out) :
    StatePlaying × List Out :=
  ({ s with managers := s.managers.modify (fun m => { m with st := (f m).1 }) fun _ => rfl },
    s.managers.elems.flatMap fun m => (f m).2)

theorem find?_onAllPeers (s : StatePlaying) (f : RemotePeerManager → PeerState × List Out)
    (mac : Str) : (s.onAllPeers f).1.managers.find? mac =
      (s.managers.find? mac).map fun m => { m with st := (f m).1 } :=
  KeySet.find?_modify s.managers (fun m => { m with st := (f m).1 }) (fun _ => rfl) mac

/-- `OnGameStopped`; `OnBluetoothOff` does the same. -/
def onGameStopped : List Out := [.issue .resetConnections, .issue .resetGame, .switch (.idle false)]

/-- `ShowRequest` up to its command. -/
def showRequest (s : StatePlaying) (request : Request) (from' : Str) : StatePlaying × List Out :=
  ({ s with shows := s.shows ++ [.request] },
    [.issue (.showRequest (typeToString request.cast.die) request.cast.values.length
      (request.threshold.getD 0) from')])

/-- `ShowResponse` up to its command. -/
def showResponse (s : StatePlaying) (response : Response) (from' : Str) : StatePlaying × List Out :=
  let responseSize := response.cast.values.length
  if showLongResponseMax / 3 < responseSize then
    (s, [.shown response, .issue (.showToast "Request is too big, cannot proceed".toList 7)])
  else
    let command := if responseSize ≤ showResponseMax / 3 then Cmd.showResponse
      else Cmd.showLongResponse
    ({ s with shows := s.shows ++ [.response] },
      [.shown response, .issue (command response.cast (typeToString response.cast.die)
        (successCountArg response.successCount) from')])

theorem showResponse_managers (s : StatePlaying) (response : Response) (name : Str) :
    (s.showResponse response name).1.managers = s.managers := by
  unfold showResponse
  dsimp only
  split <;> rfl

/-- The generator's part of a request: the dice are rolled, the response goes to every peer and is
    shown. -/
def answerRequest (ser : ISerializer) (s : StatePlaying) (request : Request) (roll : Roll) :
    StatePlaying × List Out :=
  let response := generateResponse roll request
  let encoded := ser.serializeResponse response
  let (s, o) := s.onAllPeers fun m => m.st.sendResponse m.mac encoded
  let (s, o') := s.showResponse response "You".toList
  (s, [.rolled request response] ++ o ++ o')

/-- `OnReceptionSuccess` of one manager. -/
def receptionSuccess (s : StatePlaying) (mac : Str) (answeredRequest : Bool) : StatePlaying :=
  (s.onPeer mac fun m => ⟨m.st.onReceptionSuccess answeredRequest, [], false⟩).1

theorem pendingRequest_showResponse (s : StatePlaying) (response : Response) (name : Str) :
    (s.showResponse response name).1.pendingRequest = s.pendingRequest := by
  unfold showResponse
  dsimp only
  split <;> rfl

theorem pendingRequest_receptionSuccess (s : StatePlaying) (x : Str) (answered : Bool) :
    (s.receptionSuccess x answered).pendingRequest = s.pendingRequest := by
  unfold receptionSuccess onPeer
  split <;> rfl

theorem pendingRequest_answerRequest (ser : ISerializer) (s : StatePlaying) (request : Request)
    (roll : Roll) : (s.answerRequest ser request roll).1.pendingRequest = s.pendingRequest :=
  pendingRequest_showResponse _ _ _

/-- `OnMessageReceived`; `roll` is what the engine draws. -/
def onMessageReceived (ser : ISerializer) (s : StatePlaying) (sender : Device) (message : Str)
    (roll : Roll) : StatePlaying × List Out :=
  match s.managers.find? sender.mac with
  | none => (s, [])
  | some mgr =>
    match ser.deserialize message with
    | .ok (.offer _) =>
      let s := s.receptionSuccess sender.mac s.pendingRequest.isNone
      if s.ignoreOffers then (s, []) else s.startNegotiationWithOffer sender message
    | .ok (.response response) =>
      if mgr.isGenerator then
        let isAnswer := matchesRequest response s.pendingRequest
        let s := if isAnswer then { s with pendingRequest := none } else s
        let s := s.receptionSuccess sender.mac s.pendingRequest.isNone
        let (s, o) := s.showResponse response mgr.remote.name
        (s, (if isAnswer then [.answered] else []) ++ o)
      else (s, [])
    | .ok (.request request) =>
      let s := s.receptionSuccess sender.mac s.pendingRequest.isNone
      let (s, o) := s.showRequest request mgr.remote.name
      if s.localGenerator then
        let (s, o') := s.answerRequest ser request roll
        (s, o ++ o')
      else (s, o)
    | .ok (.hello _) => (s, [])
    | .error (.ub u) => (s, [.undefined u])
    | .error (.exn _) => (s, [])

/-- `OnCastRequest`. -/
def onCastRequest (ser : ISerializer) (s : StatePlaying) (localRequest : Request) (roll : Roll) :
    StatePlaying × List Out :=
  let (s, o) := s.showRequest localRequest "You".toList
  let encodedRequest := ser.serializeRequest localRequest
  let (s, o') := s.onAllPeers fun m => m.st.sendRequest m.mac m.isGenerator encodedRequest
  if s.localGenerator then
    let (s, o'') := s.answerRequest ser localRequest roll
    (s, o ++ o' ++ o'')
  else ({ s with pendingRequest := some localRequest }, o ++ o')

/-- The handlers `StatePlaying` overrides. -/
def onEvent (ser : ISerializer) (s : StatePlaying) (roll : Roll) : Event → StatePlaying × List Out
  | .bluetoothOff => (s, onGameStopped)
  | .deviceConnected remote => (s.receptionSuccess remote.mac true, [])
  | .messageReceived sender message => s.onMessageReceived ser sender message roll
  | .castRequest localRequest => s.onCastRequest ser localRequest roll
  | .gameStopped => (s, onGameStopped)
  | .socketReadFailure transmitter =>
    s.onPeer transmitter.mac fun m => m.st.onReceptionFailure m.isGenerator
  | _ => (s, [])

/-- `ShowRequest` or `ShowResponse` behind its command. -/
def onShowAnswer (s : StatePlaying) (i : Nat) (r : ResponseCode) : StatePlaying × List Out :=
  match s.shows[i]? with
  | none => (s, [])
  | some task =>
    let s := { s with shows := s.shows.eraseIdx i }
    if r ≠ .ok then (s, onGameStopped)
    else
      match task with
      | .request => (s, [])
      | .response =>
        let s := { s with responseCount := s.responseCount + 1 }
        (s, if roundsPerGenerator ≤ s.responseCount then s.startNegotiation else [])

/-- The coroutines behind what they wait for. -/
def resume (s : StatePlaying) : PlayingResume → StatePlaying × List Out
  | .send mac i r => s.onPeer mac fun m => m.st.onSendAnswer m.mac m.isGenerator i r
  | .requestTick mac i => s.onPeer mac fun m => m.st.onTick m.mac i
  | .show i r => s.onShowAnswer i r
  | .ignoreTick => ({ s with ignoreOffers := false }, [])

end StatePlaying

/-- What can happen to the state; an event comes with what the engine would draw. -/
inductive PlayingInput where
  | event (e : Event) (roll : Roll)
  | resume (i : PlayingResume)

/-- The state over everything that can happen to it. -/
def playing (ser : ISerializer) : Machine StatePlaying PlayingInput Out where
  step s i :=
    match i with
    | .event e roll => s.onEvent ser roll e
    | .resume i => s.resume i

end Veridie.Fsm
