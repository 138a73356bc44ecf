/-
  File:      Veridie/Fsm/Transitions.lean
  Subject:   Which sequences of states the controller installs.

  Every state requests only switches to its own successors. But a switch that waits stays when a
  later one is requested, and is executed whatever state there is by then. So the sequence is legal
  exactly when every switch is requested for where the waiting ones lead, not for where the state is.

  * `Legal` -- the transitions meant; `LegalPath` -- a sequence of them;
  * `LegalQueue` -- the waiting switches, executed one after the other, make legal transitions;
  * `Admissible` -- what a state requests is legal behind the waiting switches;
  * `legal_step` -- a step is legal with what then waits exactly when it was before and is admissible;
  * `transitions_legal_iff` -- the runs that install a legal sequence.
-/
import Veridie.Fsm.Controller
import Veridie.Fsm.Leaving
import Veridie.Fsm.Runs

namespace Veridie.Fsm

open Veridie.Lib Veridie.Dice Veridie.Sign

/-! ## 1. Legal sequences -/

/-- What `stateHolder` has held: nothing yet, a state, or nothing any more. -/
inductive Phase where
  | unborn
  | held (k : Kind)
  | ended
  deriving DecidableEq, Repr

/-- The transitions meant. -/
inductive Legal : Phase → Phase → Prop where
  | start : Legal .unborn (.held .idle)
  | connect : Legal (.held .idle) (.held .connecting)
  | negotiate : Legal (.held .connecting) (.held .negotiating)
  | play : Legal (.held .negotiating) (.held .playing)
  | renegotiate : Legal (.held .playing) (.held .negotiating)
  | stopConnecting : Legal (.held .connecting) (.held .idle)
  | stopNegotiating : Legal (.held .negotiating) (.held .idle)
  | stopPlaying : Legal (.held .playing) (.held .idle)
  | failIdle : Legal (.held .idle) .ended
  | failConnecting : Legal (.held .connecting) .ended

/-- The phase that what is installed brings about. -/
def Phase.of : Option Kind → Phase
  | some k => held k
  | none => ended

/-- What was installed along a trace. -/
def installs (log : List Trace) : List (Option Kind) :=
  log.filterMap fun
    | .installed k => some k
    | .did _ => none

/-- Every state installed is a legal successor of the one before. -/
def LegalPath : Phase → List (Option Kind) → Prop
  | _, [] => True
  | p, k :: ks => Legal p (.of k) ∧ LegalPath (.of k) ks

/-- The phase behind what was installed. -/
def Phase.after (p : Phase) (ks : List (Option Kind)) : Phase := ks.foldl (fun _ k => .of k) p

theorem legalPath_append {ks' : List (Option Kind)} : ∀ {ks : List (Option Kind)} {p : Phase},
    LegalPath p (ks ++ ks') ↔ LegalPath p ks ∧ LegalPath (p.after ks) ks'
  | [], p => (and_iff_right trivial).symm
  | k :: ks, p => by
      show Legal p (.of k) ∧ LegalPath (.of k) (ks ++ ks') ↔
        (Legal p (.of k) ∧ LegalPath (.of k) ks) ∧ _
      rw [legalPath_append, and_assoc]
      rfl

theorem after_append (p : Phase) (ks ks' : List (Option Kind)) :
    p.after (ks ++ ks') = (p.after ks).after ks' := List.foldl_append

theorem installs_append (log log' : List Trace) :
    installs (log ++ log') = installs log ++ installs log' := List.filterMap_append

@[simp] theorem installs_did (outs : List Out) : installs (outs.map .did) = [] := by
  unfold installs
  rw [List.filterMap_map]
  exact List.filterMap_eq_nil_iff.mpr fun _ _ => rfl

/-! ## 2. Waiting switches -/

/-- Where a switch leads: to the state of its class, or to nothing when there is something. -/
def Phase.lands (p : Phase) (t : Target) : Phase :=
  match t.kind with
  | some k => held k
  | none =>
    match p with
    | held _ => ended
    | p => p

/-- Where the waiting switches lead. -/
def Phase.landsAll (p : Phase) (ts : List Target) : Phase := ts.foldl Phase.lands p

/-- The waiting switches, one after the other, change nothing or make a legal transition. -/
def LegalQueue : Phase → List Target → Prop
  | _, [] => True
  | p, t :: ts => (p.lands t = p ∨ Legal p (p.lands t)) ∧ LegalQueue (p.lands t) ts

theorem legalQueue_append {ts' : List Target} : ∀ {ts : List Target} {p : Phase},
    LegalQueue p (ts ++ ts') ↔ LegalQueue p ts ∧ LegalQueue (p.landsAll ts) ts'
  | [], p => (and_iff_right trivial).symm
  | t :: ts, p => by
      show (p.lands t = p ∨ Legal p (p.lands t)) ∧ LegalQueue (p.lands t) (ts ++ ts') ↔
        ((p.lands t = p ∨ Legal p (p.lands t)) ∧ LegalQueue (p.lands t) ts) ∧ _
      rw [legalQueue_append, and_assoc]
      rfl

/-- The switches a step requests are legal behind those that wait. -/
def Admissible (ser : ISerializer) (c : Controller) (i : ControllerInput) : Prop :=
  match c.state with
  | some s => LegalQueue ((Phase.held s.kind).landsAll c.switches)
    (requested (s.handle ser c.round i).2.2)
  | none => True

/-! ## 3. A step -/

/-- The class of the state held. -/
def Phase.kind? : Phase → Option Kind
  | held k => some k
  | _ => none

/-- The phase and the controller agree; before `Start` nothing waits. -/
structure Tracks (c : Controller) (p : Phase) : Prop where
  kind : c.state.map FsmState.kind = p.kind?
  fresh : c.started = false → c.switches = [] ∧ p = .unborn

theorem Tracks.held {c : Controller} {p : Phase} (h : Tracks c p) {s : FsmState}
    (hs : c.state = some s) : p = .held s.kind := by
  have hk := h.kind
  rw [hs] at hk
  cases p with
  | held k => cases hk; rfl
  | unborn => exact nomatch hk
  | ended => exact nomatch hk

theorem tracks_initial : Tracks Controller.initial .unborn := ⟨rfl, fun _ => ⟨rfl, rfl⟩⟩

section Step

variable {ser : ISerializer} {c : Controller} {p : Phase}

/-- A step that changes neither the state nor the queue. -/
theorem legal_nothing {i : ControllerInput} (h : Tracks c p) (ha : Admissible ser c i) :
    Tracks c (p.after []) ∧
    (LegalPath p [] ∧ LegalQueue (p.after []) c.switches ↔
      LegalQueue p c.switches ∧ Admissible ser c i) :=
  ⟨h, ⟨fun hq => ⟨hq.2, ha⟩, fun hq => ⟨trivial, hq.1⟩⟩⟩

theorem admissible_of_silent {i : ControllerInput}
    (h : ∀ s, (s : FsmState).handle ser c.round i = (s, c.round, [])) : Admissible ser c i := by
  unfold Admissible
  split
  · rw [h]
    trivial
  · trivial

/-- `Start`. -/
theorem legal_start (h : Tracks c p) :
    Tracks c.start.1 (p.after (installs c.start.2)) ∧
    (LegalPath p (installs c.start.2) ∧
        LegalQueue (p.after (installs c.start.2)) c.start.1.switches ↔
      LegalQueue p c.switches ∧ Admissible ser c .start) := by
  have ha : Admissible ser c .start := admissible_of_silent fun _ => rfl
  unfold Controller.start
  split
  · exact legal_nothing h ha
  · rename_i hstarted
    obtain ⟨hempty, rfl⟩ := h.fresh (Bool.eq_false_iff.mpr hstarted)
    rw [hempty]
    exact ⟨⟨h.kind, fun e => nomatch e⟩,
      ⟨fun _ => ⟨trivial, ha⟩, fun _ => ⟨trivial, Or.inr .start, trivial⟩⟩⟩

/-- An event or an answer. -/
theorem legal_handle (h : Tracks c p) (i : ControllerInput) :
    Tracks (c.handle ser i).1 (p.after (installs (c.handle ser i).2)) ∧
    (LegalPath p (installs (c.handle ser i).2) ∧
        LegalQueue (p.after (installs (c.handle ser i).2)) (c.handle ser i).1.switches ↔
      LegalQueue p c.switches ∧ Admissible ser c i) := by
  unfold Controller.handle
  split
  · rename_i hnone
    refine legal_nothing h ?_
    unfold Admissible
    rw [hnone]
    trivial
  · rename_i s hs
    have hp := h.held hs
    dsimp only
    rw [installs_did]
    refine ⟨⟨?_, fun hstarted => ?_⟩, ?_⟩
    · show some (s.handle ser c.round i).1.kind = p.kind?
      rw [handle_kind, hp]
      rfl
    · rw [hp] at h
      exact nomatch (h.fresh hstarted).2
    · show True ∧ LegalQueue p (c.switches ++ requested (s.handle ser c.round i).2.2) ↔ _
      unfold Admissible
      rw [hs, true_and, legalQueue_append, hp]

/-- A switch that leads nowhere else is dropped. -/
theorem legal_dropped {t : Target} {rest : List Target} (h : p.lands t = p) :
    LegalPath p [] ∧ LegalQueue p rest ↔ LegalQueue p (t :: rest) := by
  show True ∧ LegalQueue p rest ↔
    (p.lands t = p ∨ Legal p (p.lands t)) ∧ LegalQueue (p.lands t) rest
  rw [h, true_and]
  exact ⟨fun hq => ⟨Or.inl rfl, hq⟩, fun hq => hq.2⟩

/-- A switch that leads elsewhere is installed. -/
theorem legal_installed {t : Target} {rest : List Target} {k : Option Kind}
    (h : p.lands t = .of k) (hne : p ≠ .of k) :
    LegalPath p [k] ∧ LegalQueue (.of k) rest ↔ LegalQueue p (t :: rest) := by
  show (Legal p (.of k) ∧ True) ∧ LegalQueue (.of k) rest ↔
    (p.lands t = p ∨ Legal p (p.lands t)) ∧ LegalQueue (p.lands t) rest
  rw [h, and_true]
  exact ⟨fun ⟨hl, hq⟩ => ⟨Or.inr hl, hq⟩, fun ⟨hl, hq⟩ => ⟨hl.resolve_left hne.symm, hq⟩⟩

/-- A switch to `void` executed. -/
theorem legal_fire_void (h : Tracks c p) (hstarted : c.started ≠ false) {t : Target}
    {rest : List Target} (hkind : t.kind = none) :
    Tracks { c with state := none, switches := rest }
      (p.after (if c.state.isSome then [none] else [])) ∧
    (LegalPath p (if c.state.isSome then [none] else []) ∧
        LegalQueue (p.after (if c.state.isSome then [none] else [])) rest ↔
      LegalQueue p (t :: rest)) := by
  cases hstate : c.state with
  | none =>
    have hk := h.kind
    rw [hstate] at hk
    have hlands : p.lands t = p := by
      unfold Phase.lands
      rw [hkind]
      cases p with
      | held k => exact nomatch hk
      | unborn => rfl
      | ended => rfl
    exact ⟨⟨hk, fun e => absurd e hstarted⟩, legal_dropped hlands⟩
  | some s =>
    have hp := h.held hstate
    have hlands : p.lands t = .of none := by
      unfold Phase.lands
      rw [hkind, hp]
      rfl
    exact ⟨⟨rfl, fun e => absurd e hstarted⟩,
      legal_installed hlands fun e => nomatch hp.symm.trans e⟩

/-- A switch executed. -/
theorem legal_fire (h : Tracks c p) :
    Tracks (c.fire ser).1 (p.after (installs (c.fire ser).2)) ∧
    (LegalPath p (installs (c.fire ser).2) ∧
        LegalQueue (p.after (installs (c.fire ser).2)) (c.fire ser).1.switches ↔
      LegalQueue p c.switches ∧ Admissible ser c .fire) := by
  have ha : Admissible ser c .fire := admissible_of_silent fun _ => rfl
  unfold Controller.fire
  split
  · exact legal_nothing h ha
  · rename_i t rest hswitches
    have hstarted : c.started ≠ false := fun e => by
      rw [(h.fresh e).1] at hswitches
      exact nomatch hswitches
    rw [hswitches, and_iff_left ha]
    split
    · rename_i hconstruct
      have hlog : installs (c.destroyed.map .did ++
          if c.state.isSome then [Trace.installed none] else []) =
          if c.state.isSome then [none] else [] := by
        rw [installs_append, installs_did]
        split <;> rfl
      dsimp only
      rw [hlog]
      exact legal_fire_void h hstarted (kind_of_construct_none hconstruct)
    · rename_i r hconstruct
      obtain ⟨hreq, hkind⟩ := requested_construct hconstruct
      have hlands : p.lands t = .held r.1.kind := by
        unfold Phase.lands
        rw [hkind]
      split
      · rename_i hsame
        rw [h.kind] at hsame
        have hp : p = .held r.1.kind := by
          cases p with
          | held k => cases hsame; rfl
          | unborn => exact nomatch hsame
          | ended => exact nomatch hsame
        exact ⟨⟨h.kind, fun e => absurd e hstarted⟩, legal_dropped (hlands.trans hp.symm)⟩
      · rename_i hother
        have hswitches' : ({ c with switches := rest }.absorb r).switches = rest := by
          show rest ++ requested r.2.2 = rest
          rw [hreq, List.append_nil]
        dsimp only
        rw [installs_append, installs_append, installs_did, installs_did, hswitches']
        refine ⟨⟨rfl, fun e => absurd e hstarted⟩, legal_installed hlands fun e => hother ?_⟩
        rw [h.kind, e]
        rfl

/-- **A step** is legal with what then waits exactly when it was before and is admissible. -/
theorem legal_step (h : Tracks c p) (i : ControllerInput) :
    Tracks ((controller ser).step c i).1 (p.after (installs ((controller ser).step c i).2)) ∧
    (LegalPath p (installs ((controller ser).step c i).2) ∧
        LegalQueue (p.after (installs ((controller ser).step c i).2))
          ((controller ser).step c i).1.switches ↔
      LegalQueue p c.switches ∧ Admissible ser c i) := by
  cases i with
  | start => exact legal_start h
  | fire => exact legal_fire h
  | event e roll => exact legal_handle h (.event e roll)
  | resume i => exact legal_handle h (.resume i)

end Step

/-! ## 4. What a state requests -/

/-- At most one switch, to a legal successor, and together with it no command that is awaited. -/
def RequestsLegally (k : Kind) (outs : List Out) : Prop :=
  requested outs = [] ∨
    ∃ t, requested outs = [t] ∧ Legal (.held k) ((Phase.held k).lands t) ∧ awaited outs = []

theorem requested_of_tame {outs : List Out} (h : ∀ o ∈ outs, Tame o) : requested outs = [] :=
  List.filterMap_eq_nil_iff.mpr fun o ho => by
    have ht := h o ho
    cases o with
    | «switch» t => exact ht.elim
    | _ => rfl

theorem idle_requests (s : StateIdle) (i : ControllerInput) (ser : ISerializer) (round : UInt32) :
    RequestsLegally .idle ((FsmState.idle s).handle ser round i).2.2 := by
  have hask : ∀ s : StateIdle, RequestsLegally .idle s.requestBluetoothOn.2 := fun s => by
    unfold StateIdle.requestBluetoothOn
    split <;> exact Or.inl rfl
  have hconnect : ∀ b : Bool,
      RequestsLegally .idle (if b then [.switch .connecting] else []) := fun b => by
    cases b
    · exact Or.inl rfl
    · exact Or.inr ⟨.connecting, rfl, .connect, rfl⟩
  cases i with
  | start => exact Or.inl rfl
  | fire => exact Or.inl rfl
  | event e roll =>
    cases e with
    | bluetoothOn => exact hconnect s.newGamePending
    | bluetoothOff =>
      show RequestsLegally .idle s.onBluetoothOff.2
      unfold StateIdle.onBluetoothOff
      dsimp only
      split
      · exact hask _
      · exact Or.inl rfl
    | newGame =>
      show RequestsLegally .idle s.onNewGame.2
      unfold StateIdle.onNewGame
      dsimp only
      split
      · exact Or.inr ⟨.connecting, rfl, .connect, rfl⟩
      · split
        · exact hask _
        · exact Or.inl rfl
    | _ => exact Or.inl rfl
  | resume i =>
    cases i with
    | idle i =>
      show RequestsLegally .idle (s.resume i).2
      unfold StateIdle.resume
      split
      · split
        · exact Or.inl rfl
        · exact Or.inl rfl
        · exact hconnect s.newGamePending
        · exact Or.inr ⟨.empty, rfl, .failIdle, rfl⟩
        · exact Or.inl rfl
        · exact hask _
      · exact hask _
      · exact Or.inl rfl
    | _ => exact Or.inl rfl

theorem negotiating_requests (n : Negotiation) (i : NegotiatingInput) (ser : ISerializer) :
    RequestsLegally .negotiating ((negotiating ser).step n i).2 := by
  have hcheck : RequestsLegally .negotiating (n.updateAndBroadcastOffer ser).2 := by
    rcases n.check_cases ser with ⟨_, he⟩ | ⟨lo, _, _, he⟩ | ⟨lo, mac, _, _, _, he⟩
    · rw [he]
      exact Or.inl rfl
    · rw [he]
      exact Or.inr ⟨_, rfl, .play, rfl⟩
    · rw [he]
      refine Or.inl (requested_of_tame fun o ho => ?_)
      rcases List.mem_cons.mp ho with rfl | ho
      · trivial
      · obtain ⟨_, _, rfl⟩ := List.mem_map.mp ho
        trivial
  cases i with
  | event e =>
    cases e with
    | bluetoothOff => exact Or.inr ⟨.idle false, rfl, .stopNegotiating, rfl⟩
    | gameStopped => exact Or.inr ⟨.idle false, rfl, .stopNegotiating, rfl⟩
    | messageReceived sender message =>
      exact Or.inl (requested_onMessageReceived ser n sender message)
    | socketReadFailure transmitter =>
      show RequestsLegally .negotiating (n.onSocketReadFailure transmitter.mac).2
      unfold Negotiation.onSocketReadFailure Negotiation.erasePeer
      split
      · dsimp only
        rename_i hpeer
        rw [if_pos hpeer]
        exact Or.inl rfl
      · exact Or.inl rfl
    | _ => exact Or.inl rfl
  | resume i =>
    have herase : ∀ (m : Negotiation) (mac : Str),
        RequestsLegally .negotiating (m.erasePeer mac).2 := fun m mac => by
      unfold Negotiation.erasePeer
      dsimp only
      split <;> exact Or.inl rfl
    cases i with
    | start r =>
      show RequestsLegally .negotiating
        (if n.state.task = .starting then n.onStartAnswer ser r else (n, [])).2
      split
      · unfold Negotiation.onStartAnswer
        split
        · exact hcheck
        · exact Or.inl rfl
      · exact Or.inl rfl
    | tick =>
      show RequestsLegally .negotiating
        (if n.state.task = .waiting then n.updateAndBroadcastOffer ser else (n, [])).2
      split
      · exact hcheck
      · exact Or.inl rfl
    | send i r =>
      show RequestsLegally .negotiating (n.onSendAnswer i r).2
      unfold Negotiation.onSendAnswer
      split
      · exact Or.inl rfl
      · dsimp only
        split
        · split
          · exact Or.inl rfl
          · exact herase _ _
        · split
          · exact Or.inl rfl
          · exact herase _ _
          · exact Or.inl rfl
    | close i r =>
      show RequestsLegally .negotiating (n.onCloseAnswer i r).2
      unfold Negotiation.onCloseAnswer
      split
      · exact Or.inl rfl
      · split <;> exact Or.inl rfl

theorem sendHello_requests (ser : ISerializer) (s : StateConnecting) (mac : Str) (n : Nat) :
    requested (s.sendHello ser mac n).2 = [] := by
  unfold StateConnecting.sendHello
  split <;> rfl

theorem connecting_onMessage_requests (ser : ISerializer) (s : StateConnecting) (sender : Device)
    (message : Str) : requested (s.onMessageReceived ser sender message).2 = [] := by
  have hgreet : requested (if sender.mac ∈ s.peers.keys then (s, [])
      else s.onDeviceConnected ser sender).2 = [] := by
    split
    · rfl
    · exact sendHello_requests ser _ sender.mac _
  unfold StateConnecting.onMessageReceived
  generalize (if sender.mac ∈ s.peers.keys then (s, [])
    else s.onDeviceConnected ser sender) = r at hgreet ⊢
  dsimp only
  split
  · exact hgreet
  · split
    · exact hgreet
    · rw [requested_append, hgreet]
      rfl
    · exact hgreet

theorem connecting_requests (s : StateConnecting) (i : ControllerInput) (ser : ISerializer)
    (round : UInt32) : RequestsLegally .connecting ((FsmState.connecting s).handle ser round i).2.2 := by
  have hstart : ∀ n, RequestsLegally .connecting (s.attemptNegotiationStart n).2 := fun n => by
    unfold StateConnecting.attemptNegotiationStart
    split
    · exact Or.inr ⟨_, rfl, .negotiate, rfl⟩
    · dsimp only
      split <;> exact Or.inl rfl
  have hfatal : ∀ s : StateConnecting, RequestsLegally .connecting s.detectFatalFailure := fun s => by
    unfold StateConnecting.detectFatalFailure
    split
    · exact Or.inr ⟨.empty, rfl, .failConnecting, rfl⟩
    · exact Or.inl rfl
  have hoff : RequestsLegally .connecting StateConnecting.onBluetoothOff :=
    Or.inr ⟨.idle true, rfl, .stopConnecting, rfl⟩
  cases i with
  | start => exact Or.inl rfl
  | fire => exact Or.inl rfl
  | event e roll =>
    cases e with
    | bluetoothOff => exact hoff
    | gameStopped => exact Or.inr ⟨.idle false, rfl, .stopConnecting, rfl⟩
    | deviceConnected remote => exact Or.inl (sendHello_requests ser _ remote.mac _)
    | messageReceived sender message =>
      exact Or.inl (connecting_onMessage_requests ser s sender message)
    | socketReadFailure from' =>
      show RequestsLegally .connecting (s.onSocketReadFailure from').2
      unfold StateConnecting.onSocketReadFailure
      split <;> exact Or.inl rfl
    | connectivityEstablished =>
      show RequestsLegally .connecting s.onConnectivityEstablished.2
      unfold StateConnecting.onConnectivityEstablished
      split
      · exact Or.inl rfl
      · exact hstart _
    | _ => exact Or.inl rfl
  | resume i =>
    cases i with
    | connecting i =>
      show RequestsLegally .connecting (s.resume ser i).2
      cases i with
      | discovery r =>
        unfold StateConnecting.resume
        dsimp only
        split
        · unfold StateConnecting.onDiscoveryAnswer
          split
          · exact Or.inl rfl
          · exact hoff
          · exact Or.inl rfl
          · exact Or.inl rfl
        · exact Or.inl rfl
      | discoveryTick =>
        unfold StateConnecting.resume
        dsimp only
        split
        · unfold StateConnecting.onDiscoveryTick
          split
          · exact Or.inl rfl
          · exact hfatal _
        · exact Or.inl rfl
      | listening r =>
        unfold StateConnecting.resume
        dsimp only
        split
        · unfold StateConnecting.onListeningAnswer
          split
          · exact Or.inl rfl
          · exact hoff
          · exact hfatal _
          · exact Or.inl rfl
        · exact Or.inl rfl
      | listeningTick =>
        unfold StateConnecting.resume
        dsimp only
        split
        · unfold StateConnecting.onListeningTick
          split
          · exact Or.inl rfl
          · exact hfatal _
        · exact Or.inl rfl
      | hello i r =>
        show RequestsLegally .connecting (s.onHelloAnswer ser i r).2
        unfold StateConnecting.onHelloAnswer
        split
        · exact Or.inl rfl
        · dsimp only
          split
          · split <;> exact Or.inl rfl
          · split
            · exact Or.inl rfl
            · exact Or.inl rfl
            · split
              · exact Or.inl (sendHello_requests ser _ _ _)
              · exact Or.inl rfl
            · exact Or.inl rfl
      | close i r =>
        show RequestsLegally .connecting (s.onCloseAnswer i r).2
        unfold StateConnecting.onCloseAnswer
        split
        · exact Or.inl rfl
        · split <;> exact Or.inl rfl
      | retryTick =>
        unfold StateConnecting.resume
        dsimp only
        split
        · unfold StateConnecting.onRetryTick
          split
          · exact hstart _
          · exact Or.inr ⟨.idle false, rfl, .stopConnecting, rfl⟩
        · exact Or.inl rfl
    | _ => exact Or.inl rfl

/-- A manager calls `m_renegotiate` when it issues nothing. -/
theorem PeerState.onSendAnswer_quiet (p : PeerState) (mac : Str) (isGenerator : Bool) (i : Nat)
    (r : ResponseCode) (h : (p.onSendAnswer mac isGenerator i r).renegotiate = true) :
    (p.onSendAnswer mac isGenerator i r).outs = [] := by
  unfold PeerState.onSendAnswer at h ⊢
  split
  · rename_i message n parent htask
    rw [htask] at h
    dsimp only at h
    unfold PeerState.onAnswer at h ⊢
    split
    · cases h
    · cases h
    · dsimp only at h ⊢
      split
      · rfl
      · rename_i queued hqueued
        rw [hqueued] at h
        cases h
    · rfl
  · rfl

theorem PeerState.onTick_quiet (p : PeerState) (mac : Str) (i : Nat)
    (h : (p.onTick mac i).renegotiate = true) : (p.onTick mac i).outs = [] := by
  unfold PeerState.onTick at h ⊢
  split
  · rename_i task htask
    rw [htask] at h
    dsimp only at h ⊢
    split
    · rename_i hpending
      rw [if_pos hpending] at h
      split
      · rename_i hattempt
        rw [if_pos hattempt] at h
        cases h
      · rfl
    · rfl
  · rfl

/-- A member function of one manager requests a new negotiation at most. -/
theorem onPeer_requests {s : StatePlaying} {mac : Str} {f : RemotePeerManager → Effect}
    (h : ∀ m, ∀ o ∈ (f m).outs, Tame o) (hquiet : ∀ m, (f m).renegotiate = true → (f m).outs = []) :
    RequestsLegally .playing (s.onPeer mac f).2 := by
  unfold StatePlaying.onPeer
  split
  · exact Or.inl rfl
  · rename_i m _
    unfold RequestsLegally
    dsimp only
    rw [requested_append, requested_of_tame (h m), List.nil_append]
    split
    · rename_i hrenegotiate
      rw [hquiet m hrenegotiate]
      exact Or.inr ⟨_, rfl, .renegotiate, rfl⟩
    · exact Or.inl rfl

theorem requested_destroyManagers (managers : Managers) :
    requested (StatePlaying.destroyManagers managers) = [] := by
  refine List.filterMap_eq_nil_iff.mpr fun o ho => ?_
  obtain ⟨m, _, hm⟩ := List.mem_flatMap.mp ho
  unfold RemotePeerManager.destroy at hm
  split at hm
  · exact absurd hm List.not_mem_nil
  · rw [List.mem_singleton.mp hm]

theorem awaited_destroyManagers (managers : Managers) :
    awaited (StatePlaying.destroyManagers managers) = [] := by
  refine List.filterMap_eq_nil_iff.mpr fun o ho => ?_
  obtain ⟨m, _, hm⟩ := List.mem_flatMap.mp ho
  unfold RemotePeerManager.destroy at hm
  split at hm
  · exact absurd hm List.not_mem_nil
  · rw [List.mem_singleton.mp hm]
    rfl

theorem playing_onMessage_requests (ser : ISerializer) (s : StatePlaying) (sender : Device)
    (message : Str) (roll : Roll) :
    RequestsLegally .playing (s.onMessageReceived ser sender message roll).2 := by
  unfold StatePlaying.onMessageReceived
  split
  · exact Or.inl rfl
  · split
    · dsimp only
      split
      · exact Or.inl rfl
      · unfold StatePlaying.startNegotiationWithOffer RequestsLegally
        dsimp only
        rw [requested_append, requested_destroyManagers, awaited_append, awaited_destroyManagers]
        exact Or.inr ⟨_, rfl, .renegotiate, rfl⟩
    · split
      · refine Or.inl (requested_of_tame fun o ho => ?_)
        rcases List.mem_append.mp ho with ho | ho
        · split at ho
          · rw [List.mem_singleton.mp ho]
            trivial
          · exact absurd ho List.not_mem_nil
        · exact StatePlaying.showResponse_tame _ _ _ o ho
      · exact Or.inl rfl
    · dsimp only
      split
      · refine Or.inl (requested_of_tame fun o ho => ?_)
        rcases List.mem_append.mp ho with ho | ho
        · exact StatePlaying.showRequest_tame _ _ _ o ho
        · exact (StatePlaying.answerRequest_spec ser _ _ roll).2 o ho
      · exact Or.inl (requested_of_tame fun o ho => StatePlaying.showRequest_tame _ _ _ o ho)
    · exact Or.inl rfl
    · exact Or.inl rfl
    · exact Or.inl rfl

theorem playing_requests (ser : ISerializer) (s : StatePlaying) (i : PlayingInput) :
    RequestsLegally .playing ((playing ser).step s i).2 := by
  have hstopped : RequestsLegally .playing StatePlaying.onGameStopped :=
    Or.inr ⟨.idle false, rfl, .stopPlaying, rfl⟩
  cases i with
  | event e roll =>
    cases e with
    | bluetoothOff => exact hstopped
    | gameStopped => exact hstopped
    | messageReceived sender message => exact playing_onMessage_requests ser s sender message roll
    | castRequest request =>
      exact Or.inl (requested_of_tame (StatePlaying.castRequest_spec ser s request roll).2)
    | socketReadFailure transmitter =>
      exact onPeer_requests (fun m o ho => absurd ho List.not_mem_nil) fun _ _ => rfl
    | _ => exact Or.inl rfl
  | resume i =>
    cases i with
    | send mac i r =>
      exact onPeer_requests (fun m => (m.st.onSendAnswer_spec m.mac m.isGenerator i r).2)
        fun m => m.st.onSendAnswer_quiet m.mac m.isGenerator i r
    | requestTick mac i =>
      exact onPeer_requests (fun m => (m.st.onTick_spec m.mac i).2) fun m => m.st.onTick_quiet m.mac i
    | «show» i r =>
      show RequestsLegally .playing (s.onShowAnswer i r).2
      unfold StatePlaying.onShowAnswer
      split
      · exact Or.inl rfl
      · dsimp only
        split
        · exact hstopped
        · split
          · exact Or.inl rfl
          · dsimp only
            split
            · exact Or.inr ⟨_, rfl, .renegotiate, rfl⟩
            · exact Or.inl rfl
    | ignoreTick => exact Or.inl rfl

/-- **A state requests at most one switch at a time, and only to its own successors.** -/
theorem handle_requests (ser : ISerializer) (round : UInt32) (s : FsmState) (i : ControllerInput) :
    RequestsLegally s.kind (s.handle ser round i).2.2 := by
  cases s with
  | idle s => exact idle_requests s i ser round
  | connecting s => exact connecting_requests s i ser round
  | negotiating s =>
    cases i with
    | event e roll => exact negotiating_requests ⟨round, s⟩ (.event e) ser
    | resume i =>
      cases i with
      | negotiating i => exact negotiating_requests ⟨round, s⟩ (.resume i) ser
      | _ => exact Or.inl rfl
    | _ => exact Or.inl rfl
  | playing s =>
    cases i with
    | event e roll => exact playing_requests ser s (.event e roll)
    | resume i =>
      cases i with
      | playing i => exact playing_requests ser s (.resume i)
      | _ => exact Or.inl rfl
    | _ => exact Or.inl rfl

/-- While nothing waits, every step is admissible. -/
theorem admissible_of_drained {ser : ISerializer} {c : Controller} (h : c.switches = [])
    (i : ControllerInput) : Admissible ser c i := by
  unfold Admissible
  split
  · rename_i s _
    rw [h]
    rcases handle_requests ser c.round s i with he | ⟨t, he, hl, _⟩
    · rw [he]
      trivial
    · rw [he]
      exact ⟨Or.inr hl, trivial⟩
  · trivial

/-! ## 5. Runs -/

section Runs

variable (ser : ISerializer)

/-- A run is legal with what still waits exactly when all its steps were admissible. -/
theorem legal_run (is : List ControllerInput) :
    Tracks ((controller ser).exec .initial is)
      (Phase.unborn.after (installs ((controller ser).outs .initial is))) ∧
    (LegalPath .unborn (installs ((controller ser).outs .initial is)) ∧
        LegalQueue (Phase.unborn.after (installs ((controller ser).outs .initial is)))
          ((controller ser).exec .initial is).switches ↔
      (controller ser).Along (Admissible ser) .initial is) := by
  induction is using List.reverseRecOn with
  | nil => exact ⟨tracks_initial, ⟨fun _ => trivial, fun _ => ⟨trivial, trivial⟩⟩⟩
  | append_singleton is i ih =>
    obtain ⟨htracks, hlegal⟩ := ih
    obtain ⟨htracks', hlegal'⟩ := @legal_step ser _ _ htracks i
    have hone : (controller ser).Along (Admissible ser) ((controller ser).exec .initial is) [i] ↔
        Admissible ser ((controller ser).exec .initial is) i := and_iff_left trivial
    rw [Machine.exec_snoc, Machine.outs_snoc, installs_append, after_append, legalPath_append,
      Machine.along_append, hone, ← hlegal, and_assoc, hlegal', and_assoc]
    exact ⟨htracks', Iff.rfl⟩

/-- **A controller whose switches are executed before anything else happens** takes only legal
    transitions. -/
theorem transitions_drained (is : List ControllerInput)
    (h : (controller ser).Along (fun c i => i = .fire ∨ c.switches = []) .initial is) :
    LegalPath .unborn (installs ((controller ser).outs .initial is)) := by
  refine ((legal_run ser is).2.mpr (Machine.along_mono _ (fun c i hi => ?_) h)).1
  rcases hi with rfl | hi
  · exact admissible_of_silent fun _ => rfl
  · exact admissible_of_drained hi i

/-- **The transitions of a run.** When every switch is requested for where the waiting ones lead,
    the states installed are a path of the graph; and when they are, and nothing waits any more,
    every switch was requested so. -/
theorem transitions_legal_iff (is : List ControllerInput) :
    ((controller ser).Along (Admissible ser) .initial is →
      LegalPath .unborn (installs ((controller ser).outs .initial is))) ∧
    (((controller ser).exec .initial is).switches = [] →
      LegalPath .unborn (installs ((controller ser).outs .initial is)) →
      (controller ser).Along (Admissible ser) .initial is) := by
  obtain ⟨_, hlegal⟩ := legal_run ser is
  refine ⟨fun h => (hlegal.mpr h).1, fun hempty h => hlegal.mp ⟨h, ?_⟩⟩
  rw [hempty]
  trivial

end Runs

/-- Bluetooth comes on for a requested game, and the one switch is executed. -/
theorem transitions_connect :
    LegalPath .unborn (installs ((controller (xmlSerializer walkAsIs)).outs .initial
      [.start, .fire, .event .newGame id, .event .bluetoothOn id, .fire])) :=
  (transitions_legal_iff (xmlSerializer walkAsIs)
    [.start, .fire, .event .newGame id, .event .bluetoothOn id, .fire]).1
    ⟨trivial, trivial, trivial, ⟨Or.inr .connect, trivial⟩, trivial, trivial⟩

/-- There is no adapter, and Bluetooth comes on for a requested game all the same: the switch behind
    the one to nothing installs a state again. -/
theorem transitions_fail : ¬ (∀ (ser : ISerializer) (is : List ControllerInput),
    LegalPath .unborn (installs ((controller ser).outs .initial is))) := by
  intro h
  have hpath := h (xmlSerializer walkAsIs)
    [.start, .fire, .resume (.idle (.enable .noBtAdapter)), .event .newGame id,
      .event .bluetoothOn id, .fire, .fire]
  have hlog : LegalPath .unborn [some .idle, none, some .connecting] := hpath
  exact nomatch hlog.2.2.1

end Veridie.Fsm
