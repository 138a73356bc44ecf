/-
  File:      Veridie/Fsm/Context.lean
  Subject:   What the four states share: remote devices, the events handed to a state, the switches
             a state can request, and what it does that can be seen from outside.

  A state is a record and its handlers are functions from the record to the next one and a list of
  outputs. A coroutine of a state is a record of where it waits; the answer of its command, or its
  timer, is one more input. A command that is refused is answered `INTEROP_FAILURE` by the next
  input.
-/
import Veridie.Lib.KeySet
import Veridie.Lib.Machine
import Veridie.Sign.Commands

namespace Veridie.Fsm

open Veridie.Lib Veridie.Dice Veridie.Sign

/-! ## 1. Devices and events -/

/-- `bt::Device`. -/
structure Device where
  name : Str
  mac : Str
  deriving DecidableEq, Repr

/-- `std::unordered_set<bt::Device>`: devices are equal when their MACs are. -/
abbrev Peers := KeySet Device.mac

/-- The handlers of `StateBase`, with their arguments. -/
inductive Event where
  | bluetoothOn
  | bluetoothOff
  | deviceConnected (remote : Device)
  | deviceDisconnected (remote : Device)
  | connectivityEstablished
  | newGame
  | messageReceived (sender : Device) (message : Str)
  | castRequest (localRequest : Request)
  | gameStopped
  | socketReadFailure (transmitter : Device)

/-! ## 2. Switches -/

/-- A call of `Context::SwitchToState<S>`, with the arguments for the constructor of `S`. -/
inductive Target where
  | idle (startNewGame : Bool)
  | connecting
  | negotiating (peers : Peers) (localMac : Str)
  | negotiatingWithOffer (peers : Peers) (localMac : Str) (sender : Device) (message : Str)
  | playing (peers : Peers) (localMac generatorMac : Str)
  | empty

/-- The classes of states. -/
inductive Kind where
  | idle | connecting | negotiating | playing
  deriving DecidableEq, Repr

/-- The class `S` of a switch; `none` for `void`. -/
def Target.kind : Target → Option Kind
  | idle _ => some .idle
  | connecting => some .connecting
  | negotiating _ _ => some .negotiating
  | negotiatingWithOffer _ _ _ _ => some .negotiating
  | playing _ _ _ => some .playing
  | empty => none

/-! ## 3. Outputs -/

/-- What a state does that can be seen from outside, and some marks a proof follows. -/
inductive Out where
  /-- a command constructed and issued -/
  | issue (cmd : Cmd)
  /-- `Context::SwitchToState` called -/
  | switch (target : Target)
  /-- `cmd::pool.Resize` -/
  | resizePool (blocks : Nat)
  /-- `cmd::pool.ShrinkToFit` -/
  | shrinkPool
  /-- undefined behaviour -/
  | undefined (u : Ub)
  /-- mark: `StateNegotiating` has computed its local offer -/
  | update (offer : Offer)
  /-- mark: `StateNegotiating` has found all offers equal to this one -/
  | conclude (offer : Offer)
  /-- mark: a device erased from `m_peers` of `StateNegotiating` -/
  | erased (mac : Str)
  /-- mark: `GenerateResponse` called, and what it returned -/
  | rolled (request : Request) (response : Response)
  /-- mark: `ShowResponse` called -/
  | shown (response : Response)
  /-- mark: `m_pendingRequest` of `StatePlaying` reset -/
  | answered

/-- The commands awaited among what has been done. -/
def awaited (outs : List Out) : List Cmd := outs.filterMap fun
  | .issue cmd => if cmd.awaited then some cmd else none
  | _ => none

theorem awaited_append (o o' : List Out) : awaited (o ++ o') = awaited o ++ awaited o' :=
  List.filterMap_append

theorem mem_awaited {cmd : Cmd} {outs : List Out} :
    cmd ∈ awaited outs ↔ .issue cmd ∈ outs ∧ cmd.awaited = true := by
  unfold awaited
  rw [List.mem_filterMap]
  constructor
  · rintro ⟨o, ho, he⟩
    split at he
    · split at he
      · rename_i hawaited
        cases he
        exact ⟨ho, hawaited⟩
      · exact nomatch he
    · exact nomatch he
  · rintro ⟨ho, hawaited⟩
    exact ⟨_, ho, if_pos hawaited⟩

end Veridie.Fsm
