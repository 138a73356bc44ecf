/-
  File:      Veridie/Fsm/Leaving.lean
  Subject:   Which peers a game that is left for a new negotiation takes along, and which it closes.

  The peers to take along are those connected when the switch is requested; a connection is closed
  when the destructor of its manager finds it lost. Between the two the state still handles events,
  answers and timers, unless an offer has destroyed the managers at once.

  * `RemotePeerManager.heard` -- what an input says of the connection to a peer;
  * `Kept`, `Cleared` -- what a step does to the managers; `leaving_step` -- every step does one of
    the two;
  * `lastHeard` -- what has been heard last of a peer;
  * `leaving_partition_iff` -- every peer is either taken along or closed exactly when nothing heard
    after the request has the last word against it.
-/
import Veridie.Fsm.Playing
import Veridie.Fsm.Elected

namespace Veridie.Fsm

open Veridie.Lib Veridie.Dice Veridie.Sign

/-! ## 1. What is taken along, what is closed -/

/-- The peers a switch takes along into a negotiation. -/
def Target.carried : Target → Option Peers
  | negotiating peers _ => some peers
  | negotiatingWithOffer peers _ _ _ => some peers
  | _ => none

/-- `CloseConnection` has been issued for a MAC. -/
def Closes (outs : List Out) (mac : Str) : Prop := ∃ text, .issue (.closeConnection text mac) ∈ outs

/-- Neither a switch nor a closed connection. -/
def Tame : Out → Prop
  | .switch _ => False
  | .issue (.closeConnection _ _) => False
  | _ => True

theorem closes_append {outs outs' : List Out} {mac : Str} :
    Closes (outs ++ outs') mac ↔ Closes outs mac ∨ Closes outs' mac := by
  unfold Closes
  simp only [List.mem_append]
  exact exists_or

theorem not_closes_of_tame {outs : List Out} (h : ∀ o ∈ outs, Tame o) (mac : Str) :
    ¬ Closes outs mac := fun ⟨_, hm⟩ => h _ hm

/-- Whether the peer is connected; `none` when there is no manager for it. -/
def StatePlaying.connectedAt (s : StatePlaying) (mac : Str) : Option Bool :=
  (s.managers.find? mac).map fun m => m.st.connected

theorem mem_connectedPeers {s : StatePlaying} {mac : Str} :
    mac ∈ s.connectedPeers.keys ↔ s.connectedAt mac = some true := by
  unfold StatePlaying.connectedPeers StatePlaying.connectedAt
  rw [KeySet.mem_keys_iff, Option.map_eq_some_iff]
  constructor
  · rintro ⟨device, hd, rfl⟩
    obtain ⟨m, hm, rfl⟩ := List.mem_map.mp hd
    obtain ⟨hmem, hc⟩ := List.mem_filter.mp hm
    exact ⟨m, KeySet.find?_some.mpr ⟨hmem, rfl⟩, hc⟩
  · rintro ⟨m, hm, hc⟩
    obtain ⟨hmem, rfl⟩ := KeySet.find?_some.mp hm
    exact ⟨m.remote, List.mem_map.mpr ⟨m, List.mem_filter.mpr ⟨hmem, hc⟩, rfl⟩, rfl⟩

/-- The destructors close the connections that are lost. -/
theorem closes_destroyManagers {managers : Managers} {mac : Str} :
    Closes (StatePlaying.destroyManagers managers) mac ↔
      (managers.find? mac).map (fun m => m.st.connected) = some false := by
  unfold Closes StatePlaying.destroyManagers
  rw [Option.map_eq_some_iff]
  constructor
  · rintro ⟨text, h⟩
    obtain ⟨m, hm, ho⟩ := List.mem_flatMap.mp h
    unfold RemotePeerManager.destroy at ho
    split at ho
    · exact absurd ho List.not_mem_nil
    · rename_i hc
      cases List.mem_singleton.mp ho
      exact ⟨m, KeySet.find?_some.mpr ⟨hm, rfl⟩, by simpa using hc⟩
  · rintro ⟨m, hm, hc⟩
    obtain ⟨hmem, rfl⟩ := KeySet.find?_some.mp hm
    refine ⟨"Connection has been lost".toList, List.mem_flatMap.mpr ⟨m, hmem, ?_⟩⟩
    unfold RemotePeerManager.destroy
    rw [hc]
    exact List.mem_singleton.mpr rfl

/-! ## 2. What is heard of a peer -/

/-- What an answer to a message says of the connection. -/
def answerHeard : ResponseCode → Option Bool
  | .ok => some true
  | .invalidState | .interopFailure => none
  | _ => some false

/-- What an input says of the connection to the peer of a manager: a reception, a connection or a
    delivered message that it is there, a read failure or an undelivered one that it is lost. -/
def RemotePeerManager.heard (ser : ISerializer) (m : RemotePeerManager) :
    PlayingInput → Option Bool
  | .event (.deviceConnected remote) _ => if remote.mac = m.mac then some true else none
  | .event (.socketReadFailure transmitter) _ =>
    if transmitter.mac = m.mac then some false else none
  | .event (.messageReceived sender message) _ =>
    if sender.mac = m.mac then
      match ser.deserialize message with
      | .ok (.offer _) => some true
      | .ok (.request _) => some true
      | .ok (.response _) => if m.isGenerator then some true else none
      | _ => none
    else none
  | .resume (.send mac i r) =>
    if mac = m.mac then
      match m.st.tasks[i]? with
      | some (.sending _ _ _) => answerHeard r
      | _ => none
    else none
  | _ => none

/-- Whether the peer is connected once the input is heard. -/
def StatePlaying.connectedAfter (ser : ISerializer) (s : StatePlaying) (i : PlayingInput)
    (mac : Str) : Option Bool :=
  (s.managers.find? mac).map fun m => (m.heard ser i).getD m.st.connected

/-! ## 3. The members of a manager -/

namespace PeerState

@[simp] theorem finish_connected (p : PeerState) (parent : Option RequestTask) :
    (p.finish parent).connected = p.connected := by
  cases parent <;> rfl

@[simp] theorem send_connected (p : PeerState) (mac message : Str) (parent : Option RequestTask) :
    (p.send mac message parent).1.connected = p.connected := by
  unfold send
  split
  · exact p.finish_connected parent
  · rfl

@[simp] theorem retry_connected (p : PeerState) (mac message : Str) (n : Nat)
    (parent : Option RequestTask) : (p.retry mac message n parent).1.connected = p.connected := by
  unfold retry
  split
  · rfl
  · exact p.finish_connected parent

@[simp] theorem sendRequest_connected (p : PeerState) (mac : Str) (isGenerator : Bool)
    (request : Str) : (p.sendRequest mac isGenerator request).1.connected = p.connected :=
  send_connected ..

theorem tame_command (message mac : Str) : Tame (.issue (sendCommand message mac)) := by
  unfold sendCommand
  split <;> trivial

theorem send_tame (p : PeerState) (mac message : Str) (parent : Option RequestTask) :
    ∀ o ∈ (p.send mac message parent).2, Tame o := by
  intro o ho
  unfold send at ho
  split at ho
  · rw [List.mem_singleton.mp ho]
    trivial
  · rw [List.mem_singleton.mp ho]
    exact tame_command message mac

theorem retry_tame (p : PeerState) (mac message : Str) (n : Nat) (parent : Option RequestTask) :
    ∀ o ∈ (p.retry mac message n parent).2, Tame o := by
  intro o ho
  unfold retry at ho
  split at ho
  · rw [List.mem_singleton.mp ho]
    exact tame_command message mac
  · exact absurd ho List.not_mem_nil

/-- An answer to a message changes the connection to what it says. -/
theorem onAnswer_spec (p : PeerState) (mac : Str) (isGenerator : Bool) (message : Str) (n : Nat)
    (parent : Option RequestTask) (r : ResponseCode) :
    (p.onAnswer mac isGenerator message n parent r).st.connected =
      (answerHeard r).getD p.connected ∧
    ∀ o ∈ (p.onAnswer mac isGenerator message n parent r).outs, Tame o := by
  unfold onAnswer
  cases r with
  | invalidState => exact ⟨p.retry_connected .., p.retry_tame _ _ _ _⟩
  | interopFailure => exact ⟨p.retry_connected .., p.retry_tame _ _ _ _⟩
  | ok =>
    dsimp only
    split
    · exact ⟨finish_connected _ parent, fun o ho => absurd ho List.not_mem_nil⟩
    · exact ⟨retry_connected .., retry_tame _ _ _ _ _⟩
  | _ => exact ⟨finish_connected _ parent, fun o ho => absurd ho List.not_mem_nil⟩

/-- The coroutine behind its command. -/
theorem onSendAnswer_spec (p : PeerState) (mac : Str) (isGenerator : Bool) (i : Nat)
    (r : ResponseCode) :
    (p.onSendAnswer mac isGenerator i r).st.connected =
      (match p.tasks[i]? with
        | some (.sending _ _ _) => answerHeard r
        | _ => none).getD p.connected ∧
    ∀ o ∈ (p.onSendAnswer mac isGenerator i r).outs, Tame o := by
  unfold onSendAnswer
  cases p.tasks[i]? with
  | none => exact ⟨rfl, fun o ho => absurd ho List.not_mem_nil⟩
  | some task =>
    cases task with
    | sending message n parent =>
      exact onAnswer_spec { p with tasks := p.tasks.eraseIdx i } mac isGenerator message n parent r
    | waiting task => exact ⟨rfl, fun o ho => absurd ho List.not_mem_nil⟩

/-- The coroutine behind its timer. -/
theorem onTick_spec (p : PeerState) (mac : Str) (i : Nat) :
    (p.onTick mac i).st.connected = p.connected ∧ ∀ o ∈ (p.onTick mac i).outs, Tame o := by
  unfold onTick
  split
  · dsimp only
    split
    · split
      · exact ⟨send_connected .., send_tame _ _ _ _⟩
      · exact ⟨rfl, fun o ho => absurd ho List.not_mem_nil⟩
    · exact ⟨rfl, fun o ho => absurd ho List.not_mem_nil⟩
  · exact ⟨rfl, fun o ho => absurd ho List.not_mem_nil⟩

end PeerState

/-! ## 4. What a step does to the managers -/

/-- The switches take along the peers that are connected then. -/
def Carries (after : Str → Option Bool) (outs : List Out) : Prop :=
  ∀ t peers, .switch t ∈ outs → t.carried = some peers →
    ∀ mac, mac ∈ peers.keys ↔ after mac = some true

/-- The managers stay, nothing is closed. -/
structure Kept (after : Str → Option Bool) (r : StatePlaying × List Out) : Prop where
  connected : ∀ mac, r.1.connectedAt mac = after mac
  closes : ∀ mac, ¬ Closes r.2 mac
  carries : Carries after r.2

/-- The managers go, and close what is lost. -/
structure Cleared (after : Str → Option Bool) (r : StatePlaying × List Out) : Prop where
  gone : ∀ mac, r.1.connectedAt mac = none
  closes : ∀ mac, Closes r.2 mac ↔ after mac = some false
  carries : Carries after r.2
  switched : ∃ t, .switch t ∈ r.2

theorem carries_of_tame {after : Str → Option Bool} {outs : List Out} (h : ∀ o ∈ outs, Tame o) :
    Carries after outs := fun _ _ hm => (h _ hm).elim

theorem kept_of_tame {after : Str → Option Bool} {r : StatePlaying × List Out}
    (hconnected : ∀ mac, r.1.connectedAt mac = after mac) (h : ∀ o ∈ r.2, Tame o) : Kept after r :=
  ⟨hconnected, not_closes_of_tame h, carries_of_tame h⟩

/-- Leaving for `StateIdle` takes nobody along. -/
theorem kept_onGameStopped {after : Str → Option Bool} {s : StatePlaying}
    (h : ∀ mac, s.connectedAt mac = after mac) : Kept after (s, StatePlaying.onGameStopped) where
  connected := h
  closes := by
    rintro mac ⟨text, hm⟩
    simp [StatePlaying.onGameStopped] at hm
  carries := by
    intro t peers hm hc
    have ht : t = .idle false := by simpa [StatePlaying.onGameStopped] using hm
    rw [ht] at hc
    exact nomatch hc

/-- `StartNegotiation` in the new state, or nothing. -/
theorem kept_startNegotiation {after : Str → Option Bool} {s : StatePlaying}
    (h : ∀ mac, s.connectedAt mac = after mac) {outs : List Out} (houts : ∀ o ∈ outs, Tame o)
    (p : Prop) [Decidable p] : Kept after (s, outs ++ if p then s.startNegotiation else []) where
  connected := h
  closes := by
    rintro mac ⟨text, hm⟩
    rcases List.mem_append.mp hm with hm | hm
    · exact houts _ hm
    · split at hm
      · exact nomatch List.mem_singleton.mp hm
      · exact absurd hm List.not_mem_nil
  carries := by
    intro t peers hm hc mac
    rcases List.mem_append.mp hm with hm | hm
    · exact (houts _ hm).elim
    · split at hm
      · cases List.mem_singleton.mp hm
        cases hc
        rw [← h mac]
        exact mem_connectedPeers
      · exact absurd hm List.not_mem_nil

namespace StatePlaying

variable {ser : ISerializer} {s : StatePlaying} {i : PlayingInput}

/-- An input that says nothing of any peer. -/
theorem connectedAfter_eq (h : ∀ mac m, s.managers.find? mac = some m → m.heard ser i = none)
    (mac : Str) : s.connectedAfter ser i mac = s.connectedAt mac := by
  unfold connectedAfter connectedAt
  cases hm : s.managers.find? mac with
  | none => rfl
  | some m =>
    rw [Option.map_some, h mac m hm]
    rfl

/-- A member function of one manager, when it does what is heard of that peer. -/
theorem kept_onPeer {mac : Str} {f : RemotePeerManager → Effect}
    (hself : ∀ m, s.managers.find? mac = some m →
      (f m).st.connected = (m.heard ser i).getD m.st.connected ∧ ∀ o ∈ (f m).outs, Tame o)
    (hother : ∀ m : RemotePeerManager, m.mac ≠ mac → m.heard ser i = none) :
    Kept (s.connectedAfter ser i) (s.onPeer mac f) := by
  have hne : ∀ x, x ≠ mac → s.connectedAfter ser i x = s.connectedAt x := fun x hx => by
    unfold connectedAfter connectedAt
    cases hm : s.managers.find? x with
    | none => rfl
    | some m =>
      have hmac : m.mac ≠ mac := fun e => hx ((KeySet.find?_some.mp hm).2.symm.trans e)
      rw [Option.map_some, Option.map_some, hother m hmac]
      rfl
  unfold onPeer
  cases hm : s.managers.find? mac with
  | none =>
    refine kept_of_tame (fun x => ?_) fun o ho => absurd ho List.not_mem_nil
    by_cases hx : x = mac
    · show (s.managers.find? x).map _ = (s.managers.find? x).map _
      rw [hx, hm]
      rfl
    · exact (hne x hx).symm
  | some m =>
    obtain ⟨hc, ho⟩ := hself m hm
    refine kept_startNegotiation (fun x => ?_) ho _
    by_cases hx : x = mac
    · unfold connectedAt connectedAfter
      rw [hx, find?_setPeer_self hm, hm, Option.map_some, Option.map_some, ← hc]
    · rw [hne x hx]
      unfold connectedAt
      rw [find?_setPeer_ne hx]

/-- A member function of every manager that leaves the connections as they are. -/
theorem connectedAt_onAllPeers {f : RemotePeerManager → PeerState × List Out}
    (h : ∀ m, (f m).1.connected = m.st.connected) (mac : Str) :
    (s.onAllPeers f).1.connectedAt mac = s.connectedAt mac := by
  unfold connectedAt
  rw [find?_onAllPeers, Option.map_map]
  exact congrArg (Option.map · _) (funext h)

theorem onAllPeers_tame {f : RemotePeerManager → PeerState × List Out}
    (h : ∀ m, ∀ o ∈ (f m).2, Tame o) : ∀ o ∈ (s.onAllPeers f).2, Tame o := by
  intro o ho
  obtain ⟨m, _, hm⟩ := List.mem_flatMap.mp ho
  exact h m o hm

theorem showRequest_tame (s : StatePlaying) (request : Request) (name : Str) :
    ∀ o ∈ (s.showRequest request name).2, Tame o := by
  intro o ho
  rw [List.mem_singleton.mp ho]
  trivial

theorem showResponse_tame (s : StatePlaying) (response : Response) (name : Str) :
    ∀ o ∈ (s.showResponse response name).2, Tame o := by
  intro o ho
  unfold showResponse at ho
  dsimp only at ho
  split at ho
  · simp only [List.mem_cons, List.not_mem_nil, or_false] at ho
    rcases ho with rfl | rfl <;> trivial
  · simp only [List.mem_cons, List.not_mem_nil, or_false] at ho
    rcases ho with rfl | rfl
    · trivial
    · split <;> trivial

/-- The generator's part of a request. -/
theorem answerRequest_spec (ser : ISerializer) (s : StatePlaying) (request : Request) (roll : Roll) :
    (∀ mac, (s.answerRequest ser request roll).1.connectedAt mac = s.connectedAt mac) ∧
    ∀ o ∈ (s.answerRequest ser request roll).2, Tame o := by
  unfold answerRequest
  dsimp only
  constructor
  · intro mac
    rw [connectedAt, showResponse_managers]
    exact connectedAt_onAllPeers (fun m => m.st.send_connected ..) mac
  · intro o ho
    rcases List.mem_append.mp ho with ho | ho
    · rcases List.mem_cons.mp ho with rfl | ho
      · trivial
      · exact onAllPeers_tame (fun m => m.st.send_tame _ _ _) o ho
    · exact showResponse_tame _ _ _ o ho

/-- A reception from a peer. -/
theorem connectedAt_receptionSuccess {mac : Str} (b : Bool)
    (hself : ∀ m, s.managers.find? mac = some m → m.heard ser i = some true)
    (hother : ∀ m : RemotePeerManager, m.mac ≠ mac → m.heard ser i = none) (x : Str) :
    (s.receptionSuccess mac b).connectedAt x = s.connectedAfter ser i x :=
  (kept_onPeer (fun m hm => ⟨by rw [hself m hm]; rfl, fun o ho => absurd ho List.not_mem_nil⟩)
    hother).connected x

/-- The managers destroyed at once. -/
theorem cleared_startNegotiationWithOffer {after : Str → Option Bool}
    (h : ∀ mac, s.connectedAt mac = after mac) (sender : Device) (offer : Str) :
    Cleared after (s.startNegotiationWithOffer sender offer) where
  gone := fun mac => rfl
  closes := by
    intro mac
    rw [startNegotiationWithOffer, closes_append, closes_destroyManagers, ← h mac]
    refine ⟨fun hc => hc.resolve_right ?_, Or.inl⟩
    rintro ⟨text, hm⟩
    exact nomatch List.mem_singleton.mp hm
  carries := by
    intro t peers hm hc mac
    rcases List.mem_append.mp hm with hm | hm
    · obtain ⟨m, _, hd⟩ := List.mem_flatMap.mp hm
      unfold RemotePeerManager.destroy at hd
      split at hd
      · exact absurd hd List.not_mem_nil
      · exact nomatch List.mem_singleton.mp hd
    · cases List.mem_singleton.mp hm
      cases hc
      rw [← h mac]
      exact mem_connectedPeers
  switched := ⟨_, List.mem_append_right _ (List.mem_singleton.mpr rfl)⟩

/-- What a message says of its sender's connection. -/
theorem heard_message {m : RemotePeerManager} {sender : Device} (message : Str) (roll : Roll)
    (h : m.mac ≠ sender.mac) :
    m.heard ser (.event (.messageReceived sender message) roll) = none :=
  if_neg fun e => h e.symm

theorem leaving_message (ser : ISerializer) (s : StatePlaying) (sender : Device) (message : Str)
    (roll : Roll) :
    Kept (s.connectedAfter ser (.event (.messageReceived sender message) roll))
      (s.onMessageReceived ser sender message roll) ∨
    Cleared (s.connectedAfter ser (.event (.messageReceived sender message) roll))
      (s.onMessageReceived ser sender message roll) := by
  have hother : ∀ m : RemotePeerManager, m.mac ≠ sender.mac →
      m.heard ser (.event (.messageReceived sender message) roll) = none :=
    fun m h => heard_message message roll h
  unfold onMessageReceived
  split
  · -- no manager
    rename_i hnone
    refine Or.inl (kept_of_tame (fun mac => (connectedAfter_eq ?_ mac).symm)
      fun o ho => absurd ho List.not_mem_nil)
    intro mac m hm
    refine hother m fun e => ?_
    rw [← e, (KeySet.find?_some.mp hm).2, hm] at hnone
    exact nomatch hnone
  · rename_i mgr hmgr
    have hmac : sender.mac = mgr.mac := (KeySet.find?_some.mp hmgr).2.symm
    have hself : ∀ b : Option Bool,
        mgr.heard ser (.event (.messageReceived sender message) roll) = b →
        ∀ m, s.managers.find? sender.mac = some m →
          m.heard ser (.event (.messageReceived sender message) roll) = b := by
      intro b hb m hm
      rw [hmgr] at hm
      cases hm
      exact hb
    -- nothing is said when the message is not one of a peer
    have hsilent : mgr.heard ser (.event (.messageReceived sender message) roll) = none →
        ∀ mac, s.connectedAt mac =
          s.connectedAfter ser (.event (.messageReceived sender message) roll) mac := by
      intro hm mac
      refine (connectedAfter_eq (fun x m hx => ?_) mac).symm
      by_cases hne : m.mac = sender.mac
      · exact hself none hm m (hne ▸ (KeySet.find?_some.mp hx).2 ▸ hx)
      · exact hother m hne
    have hheard : mgr.heard ser (.event (.messageReceived sender message) roll) =
        match ser.deserialize message with
        | .ok (.offer _) => some true
        | .ok (.request _) => some true
        | .ok (.response _) => if mgr.isGenerator then some true else none
        | _ => none := if_pos hmac
    split
    · -- an offer
      rename_i offer hdecoded
      rw [hdecoded] at hheard
      have hconnected := connectedAt_receptionSuccess s.pendingRequest.isNone
        (hself _ hheard) hother
      dsimp only
      split
      · exact Or.inl (kept_of_tame hconnected fun o ho => absurd ho List.not_mem_nil)
      · exact Or.inr (cleared_startNegotiationWithOffer hconnected sender message)
    · -- a response
      rename_i response hdecoded
      rw [hdecoded] at hheard
      split
      · rename_i hgenerator
        rw [hgenerator] at hheard
        refine Or.inl (kept_of_tame (fun mac => ?_) fun o ho => ?_)
        · dsimp only
          rw [connectedAt, showResponse_managers]
          split
          · exact connectedAt_receptionSuccess (s := { s with pendingRequest := none }) _
              (hself _ hheard) hother mac
          · exact connectedAt_receptionSuccess _ (hself _ hheard) hother mac
        · rcases List.mem_append.mp ho with ho | ho
          · split at ho
            · rw [List.mem_singleton.mp ho]
              trivial
            · exact absurd ho List.not_mem_nil
          · exact showResponse_tame _ _ _ o ho
      · rename_i hgenerator
        rw [if_neg hgenerator] at hheard
        exact Or.inl (kept_of_tame (hsilent hheard) fun o ho => absurd ho List.not_mem_nil)
    · -- a request
      rename_i request hdecoded
      rw [hdecoded] at hheard
      have hconnected := connectedAt_receptionSuccess s.pendingRequest.isNone
        (hself _ hheard) hother
      refine Or.inl ?_
      dsimp only
      split
      · obtain ⟨hc, ht⟩ := answerRequest_spec ser
          ((s.receptionSuccess sender.mac s.pendingRequest.isNone).showRequest request
            mgr.remote.name).1 request roll
        refine kept_of_tame (fun mac => (hc mac).trans (hconnected mac)) fun o ho => ?_
        rcases List.mem_append.mp ho with ho | ho
        · exact showRequest_tame _ _ _ o ho
        · exact ht o ho
      · exact kept_of_tame hconnected fun o ho => showRequest_tame _ _ _ o ho
    · rename_i hello hdecoded
      rw [hdecoded] at hheard
      exact Or.inl (kept_of_tame (hsilent hheard) fun o ho => absurd ho List.not_mem_nil)
    · rename_i u hdecoded
      rw [hdecoded] at hheard
      refine Or.inl (kept_of_tame (hsilent hheard) fun o ho => ?_)
      rw [List.mem_singleton.mp ho]
      trivial
    · rename_i e hdecoded
      rw [hdecoded] at hheard
      exact Or.inl (kept_of_tame (hsilent hheard) fun o ho => absurd ho List.not_mem_nil)

/-- A request made here. -/
theorem castRequest_spec (ser : ISerializer) (s : StatePlaying) (request : Request) (roll : Roll) :
    (∀ mac, (s.onCastRequest ser request roll).1.connectedAt mac = s.connectedAt mac) ∧
    ∀ o ∈ (s.onCastRequest ser request roll).2, Tame o := by
  have hsent : ∀ mac, ((s.showRequest request "You".toList).1.onAllPeers fun m =>
      m.st.sendRequest m.mac m.isGenerator (ser.serializeRequest request)).1.connectedAt mac =
      s.connectedAt mac := fun mac =>
    connectedAt_onAllPeers (fun m => m.st.sendRequest_connected ..) mac
  have htame : ∀ o ∈ (s.showRequest request "You".toList).2 ++
      ((s.showRequest request "You".toList).1.onAllPeers fun m =>
        m.st.sendRequest m.mac m.isGenerator (ser.serializeRequest request)).2, Tame o := by
    intro o ho
    rcases List.mem_append.mp ho with ho | ho
    · exact showRequest_tame _ _ _ o ho
    · exact onAllPeers_tame (fun m => PeerState.send_tame _ _ _ _) o ho
  unfold onCastRequest
  dsimp only
  split
  · obtain ⟨hc, ht⟩ := answerRequest_spec ser
      ((s.showRequest request "You".toList).1.onAllPeers fun m =>
        m.st.sendRequest m.mac m.isGenerator (ser.serializeRequest request)).1 request roll
    refine ⟨fun mac => (hc mac).trans (hsent mac), fun o ho => ?_⟩
    rcases List.mem_append.mp ho with ho | ho
    · exact htame o ho
    · exact ht o ho
  · exact ⟨hsent, htame⟩

/-- A `ShowRequest` or `ShowResponse` behind its command. -/
theorem leaving_show (ser : ISerializer) (s : StatePlaying) (i : Nat) (r : ResponseCode) :
    Kept (s.connectedAfter ser (.resume (.show i r))) (s.onShowAnswer i r) := by
  have hquiet : ∀ mac, s.connectedAt mac = s.connectedAfter ser (.resume (.show i r)) mac :=
    fun mac => (connectedAfter_eq (fun _ _ _ => rfl) mac).symm
  unfold onShowAnswer
  split
  · exact kept_of_tame hquiet fun o ho => absurd ho List.not_mem_nil
  · dsimp only
    split
    · exact kept_onGameStopped hquiet
    · split
      · exact kept_of_tame hquiet fun o ho => absurd ho List.not_mem_nil
      · have houts : ∀ o ∈ ([] : List Out), Tame o := fun o ho => absurd ho List.not_mem_nil
        have hcounted : ∀ mac, connectedAt { s with
            shows := s.shows.eraseIdx i
            responseCount := s.responseCount + 1 } mac =
            s.connectedAfter ser (.resume (.show i r)) mac := hquiet
        exact kept_startNegotiation hcounted houts (roundsPerGenerator ≤ s.responseCount + 1)

end StatePlaying

open StatePlaying in
/-- **Every step keeps the managers with what is heard, or destroys them.** -/
theorem leaving_step (ser : ISerializer) (s : StatePlaying) (i : PlayingInput) :
    Kept (s.connectedAfter ser i) ((playing ser).step s i) ∨
    Cleared (s.connectedAfter ser i) ((playing ser).step s i) := by
  have hquiet : ∀ (i : PlayingInput), (∀ m : RemotePeerManager, m.heard ser i = none) →
      ∀ mac, s.connectedAt mac = s.connectedAfter ser i mac :=
    fun i h mac => (connectedAfter_eq (fun _ m _ => h m) mac).symm
  cases i with
  | event e roll =>
    cases e with
    | bluetoothOff => exact Or.inl (kept_onGameStopped (hquiet _ fun _ => rfl))
    | gameStopped => exact Or.inl (kept_onGameStopped (hquiet _ fun _ => rfl))
    | deviceConnected remote =>
      refine Or.inl (kept_of_tame (connectedAt_receptionSuccess true (fun m hm => ?_) fun m hm => ?_)
        fun o ho => absurd ho List.not_mem_nil)
      · exact if_pos (KeySet.find?_some.mp hm).2.symm
      · exact if_neg fun e => hm e.symm
    | messageReceived sender message => exact leaving_message ser s sender message roll
    | castRequest request =>
      obtain ⟨hc, ht⟩ := castRequest_spec ser s request roll
      exact Or.inl (kept_of_tame (fun mac => (hc mac).trans (hquiet _ (fun _ => rfl) mac)) ht)
    | socketReadFailure transmitter =>
      refine Or.inl (kept_onPeer (fun m hm => ⟨?_, fun o ho => absurd ho List.not_mem_nil⟩)
        fun m hm => if_neg fun e => hm e.symm)
      have hheard : m.heard ser (.event (.socketReadFailure transmitter) roll) = some false :=
        if_pos (KeySet.find?_some.mp hm).2.symm
      rw [hheard]
      rfl
    | _ => exact Or.inl (kept_of_tame (hquiet _ fun _ => rfl) fun o ho => absurd ho List.not_mem_nil)
  | resume i =>
    cases i with
    | send mac i r =>
      refine Or.inl (kept_onPeer (fun m hm => ?_) fun m hm => if_neg fun e => hm e.symm)
      obtain ⟨hc, ht⟩ := m.st.onSendAnswer_spec m.mac m.isGenerator i r
      have hheard : m.heard ser (.resume (.send mac i r)) =
          match m.st.tasks[i]? with
          | some (.sending _ _ _) => answerHeard r
          | _ => none := if_pos (KeySet.find?_some.mp hm).2.symm
      rw [hheard]
      exact ⟨hc, ht⟩
    | requestTick mac i =>
      exact Or.inl (kept_onPeer (fun m _ => m.st.onTick_spec m.mac i) fun _ _ => rfl)
    | «show» i r => exact Or.inl (leaving_show ser s i r)
    | ignoreTick =>
      exact Or.inl (kept_of_tame (hquiet _ fun _ => rfl) fun o ho => absurd ho List.not_mem_nil)

/-! ## 5. Runs -/

/-- What has been heard last of a peer along a run, and what was known before. -/
def lastHeard (ser : ISerializer) (mac : Str) (s : StatePlaying) (known : Bool) :
    List PlayingInput → Bool
  | [] => known
  | i :: is =>
    lastHeard ser mac ((playing ser).step s i).1
      (((s.managers.find? mac).bind fun m => m.heard ser i).getD known) is

/-- Either the peer still has its manager, its connection as last heard, and nothing is closed; or
    the managers are gone with a switch, and it is closed when it was lost. -/
def Followed (s : StatePlaying) (log : List Out) (mac : Str) (known : Bool) : Prop :=
  (s.connectedAt mac = some known ∧ ¬ Closes log mac) ∨
    (s.connectedAt mac = none ∧ (Closes log mac ↔ known = false) ∧ ∃ t, .switch t ∈ log)

section Runs

variable {ser : ISerializer} {s : StatePlaying} {log : List Out} {mac : Str} {known : Bool}

theorem connectedAfter_eq_some (ser : ISerializer) (i : PlayingInput) (h : s.connectedAt mac = some known) :
    s.connectedAfter ser i mac =
      some (((s.managers.find? mac).bind fun m => m.heard ser i).getD known) := by
  obtain ⟨m, hm, hk⟩ := Option.map_eq_some_iff.mp h
  unfold StatePlaying.connectedAfter
  rw [hm, Option.map_some, Option.bind_some, hk]

theorem connectedAfter_eq_none (ser : ISerializer) (known : Bool) (i : PlayingInput) (h : s.connectedAt mac = none) :
    s.connectedAfter ser i mac = none ∧
      ((s.managers.find? mac).bind fun m => m.heard ser i).getD known = known := by
  have hm : s.managers.find? mac = none := Option.map_eq_none_iff.mp h
  unfold StatePlaying.connectedAfter
  rw [hm]
  exact ⟨rfl, rfl⟩

/-- One more input. -/
theorem Followed.step (ser : ISerializer) (h : Followed s log mac known) (i : PlayingInput) :
    Followed ((playing ser).step s i).1 (log ++ ((playing ser).step s i).2) mac
      (((s.managers.find? mac).bind fun m => m.heard ser i).getD known) := by
  rcases h with ⟨hc, hn⟩ | ⟨hc, hn, t, ht⟩
  · have hafter := connectedAfter_eq_some ser i hc
    rcases leaving_step ser s i with hkept | hcleared
    · refine Or.inl ⟨(hkept.connected mac).trans hafter, fun hcl => ?_⟩
      exact (closes_append.mp hcl).elim hn (hkept.closes mac)
    · obtain ⟨t, ht⟩ := hcleared.switched
      refine Or.inr ⟨hcleared.gone mac, ?_, t, List.mem_append_right log ht⟩
      rw [closes_append, hcleared.closes mac, hafter, Option.some_inj]
      exact ⟨fun hcl => hcl.resolve_left hn, Or.inr⟩
  · obtain ⟨hafter, hk⟩ := connectedAfter_eq_none ser known i hc
    rw [hk]
    rcases leaving_step ser s i with hkept | hcleared
    · refine Or.inr ⟨(hkept.connected mac).trans hafter, ?_, t, List.mem_append_left _ ht⟩
      rw [closes_append, ← hn]
      exact ⟨fun hcl => hcl.resolve_right (hkept.closes mac), Or.inl⟩
    · refine Or.inr ⟨hcleared.gone mac, ?_, t, List.mem_append_left _ ht⟩
      rw [closes_append, hcleared.closes mac, hafter, ← hn]
      exact ⟨fun hcl => hcl.resolve_right fun e => (nomatch e), Or.inl⟩

/-- A run. -/
theorem Followed.run (ser : ISerializer) : ∀ (is : List PlayingInput) {s : StatePlaying}
    {log : List Out} {known : Bool}, Followed s log mac known →
    Followed ((playing ser).exec s is) (log ++ (playing ser).outs s is) mac
      (lastHeard ser mac s known is)
  | [], s, log, known, h => by
      rw [Machine.outs_nil, List.append_nil]
      exact h
  | i :: is, s, log, known, h => by
      rw [Machine.exec_cons, Machine.outs_cons, ← List.append_assoc]
      exact Followed.run ser is (h.step ser i)

/-- The destructor settles what is closed. -/
theorem Followed.destroy (h : Followed s log mac known) :
    Closes (log ++ s.destroy) mac ↔ known = false := by
  rw [closes_append, StatePlaying.destroy, closes_destroyManagers]
  show _ ∨ s.connectedAt mac = some false ↔ _
  rcases h with ⟨hc, hn⟩ | ⟨hc, hn, _⟩
  · rw [hc, Option.some_inj]
    exact ⟨fun h => h.resolve_left hn, Or.inr⟩
  · rw [hc, hn]
    exact ⟨fun h => h.resolve_right fun e => (nomatch e), Or.inl⟩

theorem followed_construct {peers : Peers} (localMac generatorMac : Str) {device : Device}
    (h : device ∈ peers.elems) :
    Followed (StatePlaying.construct peers localMac generatorMac) [] device.mac true := by
  refine Or.inl ⟨?_, fun ⟨_, hm⟩ => absurd hm List.not_mem_nil⟩
  unfold StatePlaying.connectedAt
  refine Option.map_eq_some_iff.mpr ⟨⟨device, _, ⟨false, true, [], []⟩⟩,
    KeySet.find?_some.mpr ⟨List.mem_map.mpr ⟨device, h, rfl⟩, rfl⟩, rfl⟩

/-- The step that requests the first switch finds the managers in place, and takes along what is
    connected then. -/
theorem Followed.request (h : Followed s log mac known) (hfirst : ∀ t, .switch t ∉ log)
    {i : PlayingInput} {t : Target} {carried : Peers}
    (hswitch : .switch t ∈ ((playing ser).step s i).2) (ht : t.carried = some carried) :
    Followed ((playing ser).step s i).1 (log ++ ((playing ser).step s i).2) mac
      (decide (mac ∈ carried.keys)) := by
  have hstep := h.step ser i
  rcases h with ⟨hc, _⟩ | ⟨_, _, t', ht'⟩
  · have hcarried : mac ∈ carried.keys ↔ s.connectedAfter ser i mac = some true := by
      rcases leaving_step ser s i with hkept | hcleared
      · exact hkept.carries t carried hswitch ht mac
      · exact hcleared.carries t carried hswitch ht mac
    rw [connectedAfter_eq_some ser i hc, Option.some_inj] at hcarried
    rwa [show decide (mac ∈ carried.keys) = _ from Bool.eq_iff_iff.mpr
      (decide_eq_true_iff.trans hcarried)]
  · exact absurd ht' (hfirst t')

/-- **Leaving a game for a negotiation.** A run of the state that requests a switch to a negotiation
    first, and is handed more inputs before it is destroyed: every peer is either taken along or
    closed, and not both, exactly when what was heard last of each peer after the request, if
    anything, is what the request took it for. -/
theorem leaving_partition_iff (ser : ISerializer) (peers : Peers) (localMac generatorMac : Str)
    (is : List PlayingInput) (i : PlayingInput) (js : List PlayingInput) {t : Target}
    {carried : Peers}
    (hfirst : ∀ t, .switch t ∉
      (playing ser).outs (StatePlaying.construct peers localMac generatorMac) is)
    (hswitch : .switch t ∈ ((playing ser).step
      ((playing ser).exec (StatePlaying.construct peers localMac generatorMac) is) i).2)
    (ht : t.carried = some carried) :
    (∀ device ∈ peers.elems,
      let log := (playing ser).outs (StatePlaying.construct peers localMac generatorMac)
          (is ++ i :: js) ++
        ((playing ser).exec (StatePlaying.construct peers localMac generatorMac)
          (is ++ i :: js)).destroy
      (device.mac ∈ carried.keys ∧ ¬ Closes log device.mac) ∨
      (device.mac ∉ carried.keys ∧ Closes log device.mac)) ↔
    ∀ device ∈ peers.elems,
      lastHeard ser device.mac
        ((playing ser).step
          ((playing ser).exec (StatePlaying.construct peers localMac generatorMac) is) i).1
        (decide (device.mac ∈ carried.keys)) js = decide (device.mac ∈ carried.keys) := by
  refine forall_congr' fun device => forall_congr' fun hdevice => ?_
  have hbefore : Followed _ ((playing ser).outs
      (StatePlaying.construct peers localMac generatorMac) is) device.mac _ :=
    Followed.run ser is (followed_construct localMac generatorMac hdevice)
  have hafter := (Followed.run ser js (hbefore.request hfirst hswitch ht)).destroy
  dsimp only
  rw [Machine.outs_append, Machine.outs_cons, Machine.exec_append, Machine.exec_cons,
    ← List.append_assoc, hafter]
  by_cases hmem : device.mac ∈ carried.keys
  · simp [hmem]
  · simp [hmem]

end Runs

/-- An offer that is ignored is heard all the same. -/
theorem step_ignored_offer {ser : ISerializer} {s : StatePlaying} {sender : Device} {message : Str}
    {mgr : RemotePeerManager} {offer : Offer} (roll : Roll)
    (hmgr : s.managers.find? sender.mac = some mgr)
    (hdecoded : ser.deserialize message = .ok (.offer offer)) (hignore : s.ignoreOffers = true) :
    (playing ser).step s (.event (.messageReceived sender message) roll) =
      (s.receptionSuccess sender.mac s.pendingRequest.isNone, []) := by
  have hsame : (s.receptionSuccess sender.mac s.pendingRequest.isNone).ignoreOffers = true := by
    unfold StatePlaying.receptionSuccess StatePlaying.onPeer
    rw [hmgr]
    exact hignore
  show s.onMessageReceived ser sender message roll = _
  unfold StatePlaying.onMessageReceived
  rw [hmgr]
  dsimp only
  rw [hdecoded]
  dsimp only
  rw [if_pos hsame]

/-- Both connections are lost, that of the generator last, and nothing more is heard: "B" is not
    taken along, and closed. -/
theorem leaving_partition_bc : "B".toList ∉ (KeySet.empty : Peers).keys ∧
    Closes ((playing (xmlSerializer walkAsIs)).outs
        (StatePlaying.construct peersBC "A".toList "C".toList)
        ([.event (.socketReadFailure ⟨"b".toList, "B".toList⟩) id] ++
          .event (.socketReadFailure ⟨"c".toList, "C".toList⟩) id :: []) ++
      ((playing (xmlSerializer walkAsIs)).exec
        (StatePlaying.construct peersBC "A".toList "C".toList)
        ([.event (.socketReadFailure ⟨"b".toList, "B".toList⟩) id] ++
          .event (.socketReadFailure ⟨"c".toList, "C".toList⟩) id :: [])).destroy) "B".toList :=
  ((leaving_partition_iff (xmlSerializer walkAsIs) peersBC "A".toList "C".toList
    [.event (.socketReadFailure ⟨"b".toList, "B".toList⟩) id]
    (.event (.socketReadFailure ⟨"c".toList, "C".toList⟩) id) []
    (t := .negotiating KeySet.empty "A".toList) (fun _ h => absurd h List.not_mem_nil)
    List.mem_cons_self rfl).mpr (fun _ _ => rfl) ⟨"b".toList, "B".toList⟩ (by decide)).resolve_left
      fun h => List.not_mem_nil h.1

/-- "B" is not taken along, is heard again, and is not closed. -/
theorem leaving_partition_fails : ¬ (∀ (ser : ISerializer) (peers : Peers)
    (localMac generatorMac : Str) (is : List PlayingInput) (i : PlayingInput)
    (js : List PlayingInput) (t : Target) (carried : Peers)
    (_ : ∀ t, .switch t ∉
      (playing ser).outs (StatePlaying.construct peers localMac generatorMac) is)
    (_ : .switch t ∈ ((playing ser).step
      ((playing ser).exec (StatePlaying.construct peers localMac generatorMac) is) i).2)
    (_ : t.carried = some carried),
    ∀ device ∈ peers.elems,
      let log := (playing ser).outs (StatePlaying.construct peers localMac generatorMac)
          (is ++ i :: js) ++
        ((playing ser).exec (StatePlaying.construct peers localMac generatorMac)
          (is ++ i :: js)).destroy
      (device.mac ∈ carried.keys ∧ ¬ Closes log device.mac) ∨
      (device.mac ∉ carried.keys ∧ Closes log device.mac)) := by
  intro h
  have hb := h (xmlSerializer walkAsIs) peersBC "A".toList "C".toList
    [.event (.socketReadFailure ⟨"b".toList, "B".toList⟩) id]
    (.event (.socketReadFailure ⟨"c".toList, "C".toList⟩) id)
    [.event (.messageReceived ⟨"b".toList, "B".toList⟩
      ((xmlSerializer walkAsIs).serializeOffer ⟨"C".toList, 2⟩)) id]
    (.negotiating KeySet.empty "A".toList) KeySet.empty
    (fun _ h => absurd h List.not_mem_nil) List.mem_cons_self rfl
    ⟨"b".toList, "B".toList⟩ (by decide)
  dsimp only at hb
  rw [List.cons_append, List.nil_append, Machine.outs_cons, Machine.outs_cons, Machine.outs_cons,
    Machine.exec_cons, Machine.exec_cons, Machine.exec_cons,
    step_ignored_offer id rfl xmlSerializer_offer_c rfl] at hb
  rcases hb with ⟨hcarried, _⟩ | ⟨_, text, hclosed⟩
  · exact absurd hcarried List.not_mem_nil
  · have hlog : Out.issue (.closeConnection text "B".toList) ∈
        [Out.switch (.negotiating KeySet.empty "A".toList),
          .issue (.closeConnection "Connection has been lost".toList "C".toList)] := hclosed
    simp at hlog

end Veridie.Fsm
