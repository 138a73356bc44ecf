/-
  File:      Veridie/Fsm/Radio.lean
  Subject:   Discovery and listening in `StateConnecting`: two loops side by side, each with its own
             ways to end, and the fatal failure when both have ended in vain.

  * `connecting` -- the state over everything that can happen to it;
  * `StateConnecting.radio`, `radio_frame` -- what the two loops work on, and nothing else changes;
  * `Detects` -- the failure has been shown exactly when both loops have failed;
  * `fatal_failure_detected_iff` -- it is in every run, but for discovery that ends in an answer
    after listening has failed.
-/
import Veridie.Fsm.Connecting
import Veridie.Dice.RoundTrip

namespace Veridie.Fsm

open Veridie.Lib Veridie.Dice Veridie.Sign

/-! ## 1. The state by itself -/

/-- What can happen to `StateConnecting`. -/
inductive ConnectingInput where
  | event (e : Event)
  | resume (i : ConnectingResume)

/-- The state over everything that can happen to it. -/
def connecting (ser : ISerializer) : Machine StateConnecting ConnectingInput Out where
  step s i :=
    match i with
    | .event e => s.onEvent ser e
    | .resume i => s.resume ser i

/-- What the two loops read and write. -/
structure Radio where
  discovering : Option Bool
  listening : Option Bool
  discovery : Option KickOffTask
  listen : Option KickOffTask

/-- The radio of a state. -/
def StateConnecting.radio (s : StateConnecting) : Radio :=
  ⟨s.discovering, s.listening, s.discovery, s.listen⟩

/-- A step of one of the loops. -/
def ConnectingInput.loops : ConnectingInput → Prop
  | .resume (.discovery _) | .resume .discoveryTick => True
  | .resume (.listening _) | .resume .listeningTick => True
  | _ => False

/-- Neither a command of the loops nor the fatal failure. -/
def RadioSilent : Out → Prop
  | .issue .startDiscovery | .issue .startListening => False
  | .issue .stopDiscovery | .issue .stopListening => False
  | .issue (.showAndExit _) => False
  | _ => True

/-- What leaves the radio alone. -/
def Framed (s : StateConnecting) (r : StateConnecting × List Out) : Prop :=
  r.1.radio = s.radio ∧ ∀ o ∈ r.2, RadioSilent o

section Frame

variable {ser : ISerializer} {s : StateConnecting}

theorem framed_sendHello {s' : StateConnecting} (h : s'.radio = s.radio) (mac : Str) (n : Nat) :
    Framed s (StateConnecting.sendHello ser s' mac n) := by
  unfold StateConnecting.sendHello
  split
  · exact ⟨h, by simp [RadioSilent]⟩
  · exact ⟨h, by simp⟩

theorem framed_start (s : StateConnecting) (n : Nat) : Framed s (s.attemptNegotiationStart n) := by
  unfold StateConnecting.attemptNegotiationStart
  split
  · exact ⟨rfl, by simp [RadioSilent]⟩
  · refine ⟨rfl, ?_⟩
    dsimp only
    split <;> simp [RadioSilent]

theorem framed_message (sender : Device) (message : Str) :
    Framed s (StateConnecting.onMessageReceived ser s sender message) := by
  have hgreet : Framed s (if sender.mac ∈ s.peers.keys then (s, [])
      else StateConnecting.onDeviceConnected ser s sender) := by
    split
    · exact ⟨rfl, by simp⟩
    · exact framed_sendHello rfl _ _
  unfold StateConnecting.onMessageReceived
  generalize (if sender.mac ∈ s.peers.keys then (s, [])
    else StateConnecting.onDeviceConnected ser s sender) = r at hgreet ⊢
  dsimp only
  split
  · exact hgreet
  · split
    · exact hgreet
    · refine ⟨hgreet.1, fun o ho => ?_⟩
      rcases List.mem_append.mp ho with ho | ho
      · exact hgreet.2 o ho
      · rw [List.mem_singleton.mp ho]
        trivial
    · exact hgreet

/-- **Everything but the loops** leaves the radio alone. -/
theorem radio_frame {i : ConnectingInput} (h : ¬ i.loops) :
    Framed s ((connecting ser).step s i) := by
  have hsame : Framed s (s, []) := ⟨rfl, fun o ho => absurd ho List.not_mem_nil⟩
  cases i with
  | event e =>
    cases e with
    | deviceConnected remote => exact framed_sendHello rfl _ _
    | messageReceived sender message => exact framed_message sender message
    | socketReadFailure from' =>
      show Framed s (s.onSocketReadFailure from')
      unfold StateConnecting.onSocketReadFailure
      split
      · exact ⟨rfl, by simp [RadioSilent]⟩
      · exact hsame
    | connectivityEstablished =>
      show Framed s s.onConnectivityEstablished
      unfold StateConnecting.onConnectivityEstablished
      split
      · exact hsame
      · exact framed_start s _
    | bluetoothOff =>
      refine ⟨rfl, fun o ho => ?_⟩
      rw [List.mem_singleton.mp ho]
      trivial
    | gameStopped =>
      refine ⟨rfl, fun o ho => ?_⟩
      rcases List.mem_pair.mp ho with rfl | rfl <;> trivial
    | deviceDisconnected remote => exact ⟨rfl, fun o ho => absurd ho List.not_mem_nil⟩
    | _ => exact hsame
  | resume i =>
    cases i with
    | discovery r => exact absurd trivial h
    | discoveryTick => exact absurd trivial h
    | listening r => exact absurd trivial h
    | listeningTick => exact absurd trivial h
    | hello k r =>
      show Framed s (s.onHelloAnswer ser k r)
      unfold StateConnecting.onHelloAnswer
      split
      · exact hsame
      · dsimp only
        split
        · split
          · exact ⟨rfl, by simp [RadioSilent]⟩
          · exact ⟨rfl, by simp⟩
        · split
          · exact ⟨rfl, by simp⟩
          · exact ⟨rfl, by simp [RadioSilent]⟩
          · split
            · exact framed_sendHello rfl _ _
            · exact ⟨rfl, by simp⟩
          · exact ⟨rfl, by simp⟩
    | close k r =>
      show Framed s (s.onCloseAnswer k r)
      unfold StateConnecting.onCloseAnswer
      split
      · exact hsame
      · split
        · exact ⟨rfl, by simp [RadioSilent]⟩
        · exact ⟨rfl, by simp⟩
    | retryTick =>
      show Framed s (s.resume ser .retryTick)
      unfold StateConnecting.resume
      dsimp only
      split
      · unfold StateConnecting.onRetryTick
        split
        · exact framed_start s _
        · exact ⟨rfl, by simp [RadioSilent]⟩
      · exact hsame

/-- What a step does to the radio: nothing, or what one of the two loops does behind its command or
    behind its timer. -/
inductive RadioMove (ser : ISerializer) (s : StateConnecting) (i : ConnectingInput) :
    StateConnecting × List Out → Prop where
  | framed (r : StateConnecting × List Out) (h : Framed s r) : RadioMove ser s i r
  | discoveryOk (n : Nat) (hs : s.discovery = some (.asking n)) (hi : i = .resume (.discovery .ok)) :
      RadioMove ser s i ({ s with discovering := some true, discovery := none }, [])
  | discoveryOff (n : Nat) (hs : s.discovery = some (.asking n))
      (hi : i = .resume (.discovery .bluetoothOff)) :
      RadioMove ser s i ({ s with discovery := none }, [.switch (.idle true)])
  | discoveryBusy (n : Nat) (hs : s.discovery = some (.asking n))
      (hi : i = .resume (.discovery .invalidState)) :
      RadioMove ser s i ({ s with discovery := some (.waiting n) }, [])
  | discoveryFailed (n : Nat) (r : ResponseCode) (hs : s.discovery = some (.asking n))
      (hi : i = .resume (.discovery r)) (hr : r ≠ .ok ∧ r ≠ .bluetoothOff ∧ r ≠ .invalidState) :
      RadioMove ser s i ({ s with discovering := some false, discovery := none }, [])
  | discoveryRetried (n : Nat) (hs : s.discovery = some (.waiting n))
      (hi : i = .resume .discoveryTick) (hn : 0 < n) :
      RadioMove ser s i ({ s with discovery := some (.asking (n - 1)) }, [.issue .startDiscovery])
  | discoveryGivenUp (hs : s.discovery = some (.waiting 0)) (hi : i = .resume .discoveryTick)
      (s' : StateConnecting) (hs' : s' = { s with discovering := some false, discovery := none }) :
      RadioMove ser s i (s', s'.detectFatalFailure)
  | listeningOk (n : Nat) (hs : s.listen = some (.asking n)) (hi : i = .resume (.listening .ok)) :
      RadioMove ser s i ({ s with listening := some true, listen := none }, [])
  | listeningOff (n : Nat) (hs : s.listen = some (.asking n))
      (hi : i = .resume (.listening .bluetoothOff)) :
      RadioMove ser s i ({ s with listen := none }, [.switch (.idle true)])
  | listeningDeclined (n : Nat) (hs : s.listen = some (.asking n))
      (hi : i = .resume (.listening .userDeclined)) (s' : StateConnecting)
      (hs' : s' = { s with listening := some false, listen := none }) :
      RadioMove ser s i (s', s'.detectFatalFailure)
  | listeningBusy (n : Nat) (r : ResponseCode) (hs : s.listen = some (.asking n))
      (hi : i = .resume (.listening r)) (hr : r ≠ .ok) :
      RadioMove ser s i ({ s with listen := some (.waiting n) }, [])
  | listeningRetried (n : Nat) (hs : s.listen = some (.waiting n))
      (hi : i = .resume .listeningTick) (hn : 0 < n) :
      RadioMove ser s i ({ s with listen := some (.asking (n - 1)) }, [.issue .startListening])
  | listeningGivenUp (hs : s.listen = some (.waiting 0)) (hi : i = .resume .listeningTick)
      (s' : StateConnecting) (hs' : s' = { s with listening := some false, listen := none }) :
      RadioMove ser s i (s', s'.detectFatalFailure)

theorem same_move {i : ConnectingInput} : RadioMove ser s i (s, []) :=
  .framed _ ⟨rfl, fun _ ho => absurd ho List.not_mem_nil⟩

theorem discovery_move (r : ResponseCode) :
    RadioMove ser s (.resume (.discovery r)) ((connecting ser).step s (.resume (.discovery r))) := by
  show RadioMove ser s _ (s.resume ser (.discovery r))
  unfold StateConnecting.resume
  dsimp only
  split
  · rename_i n hs
    unfold StateConnecting.onDiscoveryAnswer
    split
    · exact .discoveryOk n hs rfl
    · exact .discoveryOff n hs rfl
    · exact .discoveryBusy n hs rfl
    · rename_i hok hoff hbusy
      exact .discoveryFailed n r hs rfl ⟨hok, hoff, hbusy⟩
  · exact same_move

theorem listening_move (r : ResponseCode) :
    RadioMove ser s (.resume (.listening r)) ((connecting ser).step s (.resume (.listening r))) := by
  show RadioMove ser s _ (s.resume ser (.listening r))
  unfold StateConnecting.resume
  dsimp only
  split
  · rename_i n hs
    unfold StateConnecting.onListeningAnswer
    split
    · exact .listeningOk n hs rfl
    · exact .listeningOff n hs rfl
    · exact .listeningDeclined n hs rfl _ rfl
    · rename_i hok _ _
      exact .listeningBusy n r hs rfl hok
  · exact same_move

theorem discoveryTick_move :
    RadioMove ser s (.resume .discoveryTick) ((connecting ser).step s (.resume .discoveryTick)) := by
  show RadioMove ser s _ (s.resume ser .discoveryTick)
  unfold StateConnecting.resume
  dsimp only
  split
  · rename_i n hs
    unfold StateConnecting.onDiscoveryTick
    split
    · rename_i hn
      exact .discoveryRetried n hs rfl hn
    · rename_i hn
      rw [Nat.eq_zero_of_not_pos hn] at hs
      exact .discoveryGivenUp hs rfl _ rfl
  · exact same_move

theorem listeningTick_move :
    RadioMove ser s (.resume .listeningTick) ((connecting ser).step s (.resume .listeningTick)) := by
  show RadioMove ser s _ (s.resume ser .listeningTick)
  unfold StateConnecting.resume
  dsimp only
  split
  · rename_i n hs
    unfold StateConnecting.onListeningTick
    split
    · rename_i hn
      exact .listeningRetried n hs rfl hn
    · rename_i hn
      rw [Nat.eq_zero_of_not_pos hn] at hs
      exact .listeningGivenUp hs rfl _ rfl
  · exact same_move

/-- **Every step** is one of these. -/
theorem radio_move (i : ConnectingInput) : RadioMove ser s i ((connecting ser).step s i) := by
  cases i with
  | event e => exact .framed _ (radio_frame id)
  | resume i =>
    cases i with
    | discovery r => exact discovery_move r
    | discoveryTick => exact discoveryTick_move
    | listening r => exact listening_move r
    | listeningTick => exact listeningTick_move
    | hello k r => exact .framed _ (radio_frame id)
    | close k r => exact .framed _ (radio_frame id)
    | retryTick => exact .framed _ (radio_frame id)

end Frame

/-! ## 2. The fatal failure -/

/-- How often the failure has been shown. -/
def exits (outs : List Out) : Nat := outs.countP fun
  | .issue (.showAndExit _) => true
  | _ => false

/-- The loops have both ended in failure. -/
def Radio.Dead (r : Radio) : Prop := r.discovering = some false ∧ r.listening = some false

instance (r : Radio) : Decidable r.Dead := inferInstanceAs (Decidable (_ ∧ _))

/-- The failure has been shown once, and the switch requested, when both loops have failed, and not
    at all as long as one has not. -/
structure Detects (s : StateConnecting) (log : List Out) : Prop where
  shown : exits log = if s.radio.Dead then 1 else 0
  switched : s.radio.Dead → .switch .empty ∈ log

/-- A loop whose flag is set has ended. -/
structure Ended (r : Radio) : Prop where
  discovery : r.discovering.isSome → r.discovery = none
  listening : r.listening.isSome → r.listen = none

/-- Discovery ends in an answer that is neither a success, nor the end of Bluetooth, nor one to try
    again after, when listening has failed already. -/
def EndsUnheard (s : StateConnecting) (i : ConnectingInput) : Prop :=
  ∃ r n, i = .resume (.discovery r) ∧ s.discovery = some (.asking n) ∧
    r ≠ .ok ∧ r ≠ .bluetoothOff ∧ r ≠ .invalidState ∧ s.listening = some false

section Failure

variable {ser : ISerializer} {s : StateConnecting} {log : List Out} {i : ConnectingInput}

theorem exits_append (o o' : List Out) : exits (o ++ o') = exits o + exits o' := List.countP_append

theorem exits_silent {outs : List Out} (h : ∀ o ∈ outs, RadioSilent o) : exits outs = 0 := by
  refine List.countP_eq_zero.mpr fun o ho hexit => ?_
  have hsilent := h o ho
  split at hexit
  · exact hsilent
  · exact nomatch hexit

/-- `DetectFatalFailure`. -/
theorem detects_fatal {s' : StateConnecting} (h : Detects s log) (halive : ¬ s.radio.Dead) :
    Detects s' (log ++ s'.detectFatalFailure) := by
  have hnone := h.shown
  rw [if_neg halive] at hnone
  unfold StateConnecting.detectFatalFailure
  by_cases hdead : s'.radio.Dead
  · rw [if_pos (show s'.listening = some false ∧ s'.discovering = some false from hdead.symm)]
    refine ⟨?_, fun _ =>
      List.mem_append_right _ (List.mem_cons_of_mem _ (List.mem_singleton.mpr rfl))⟩
    rw [exits_append, hnone, if_pos hdead]
    rfl
  · rw [if_neg (show ¬ (s'.listening = some false ∧ s'.discovering = some false) from
      fun hd => hdead hd.symm)]
    rw [List.append_nil]
    exact ⟨by rw [hnone, if_neg hdead], fun hd => absurd hd hdead⟩

/-- Nothing is shown, and the loops are as dead as before. -/
theorem detects_silent {s' : StateConnecting} {outs : List Out} (h : Detects s log)
    (hdead : s'.radio.Dead ↔ s.radio.Dead) (houts : exits outs = 0) : Detects s' (log ++ outs) where
  shown := by
    rw [exits_append, houts, h.shown]
    simp only [hdead, Nat.add_zero]
  switched := fun hd => List.mem_append_left _ (h.switched (hdead.mp hd))

theorem ended_of_radio {s' : StateConnecting} (h : Ended s.radio) (he : s'.radio = s.radio) :
    Ended s'.radio := he ▸ h

/-- The flags are set when the loops end. -/
theorem ended_step (h : Ended s.radio) (i : ConnectingInput) :
    Ended ((connecting ser).step s i).1.radio := by
  have hmove := @radio_move ser s i
  generalize (connecting ser).step s i = r at hmove ⊢
  cases hmove with
  | framed r hf => exact ended_of_radio h hf.1
  | discoveryOk n hs hi => exact ⟨fun _ => rfl, h.listening⟩
  | discoveryOff n hs hi => exact ⟨fun _ => rfl, h.listening⟩
  | discoveryBusy n hs hi =>
    exact ⟨fun hd => (nomatch hs.symm.trans (h.discovery hd)), h.listening⟩
  | discoveryFailed n r hs hi hr => exact ⟨fun _ => rfl, h.listening⟩
  | discoveryRetried n hs hi hn =>
    exact ⟨fun hd => (nomatch hs.symm.trans (h.discovery hd)), h.listening⟩
  | discoveryGivenUp hs hi s' hs' => exact hs' ▸ ⟨fun _ => rfl, h.listening⟩
  | listeningOk n hs hi => exact ⟨h.discovery, fun _ => rfl⟩
  | listeningOff n hs hi => exact ⟨h.discovery, fun _ => rfl⟩
  | listeningDeclined n hs hi s' hs' => exact hs' ▸ ⟨h.discovery, fun _ => rfl⟩
  | listeningBusy n r hs hi hr =>
    exact ⟨h.discovery, fun hl => nomatch hs.symm.trans (h.listening hl)⟩
  | listeningRetried n hs hi hn =>
    exact ⟨h.discovery, fun hl => nomatch hs.symm.trans (h.listening hl)⟩
  | listeningGivenUp hs hi s' hs' => exact hs' ▸ ⟨h.discovery, fun _ => rfl⟩

theorem alive_of_discovery (he : Ended s.radio) {task : KickOffTask} (hs : s.discovery = some task) :
    ¬ s.radio.Dead := fun hd =>
  nomatch hs.symm.trans (he.discovery (hd.1 ▸ rfl))

theorem alive_of_listen (he : Ended s.radio) {task : KickOffTask} (hs : s.listen = some task) :
    ¬ s.radio.Dead := fun hd =>
  nomatch hs.symm.trans (he.listening (hd.2 ▸ rfl))

/-- A loop that is under way goes on, or ends without a failure. -/
theorem detects_alive {s' : StateConnecting} {outs : List Out} (h : Detects s log)
    (halive : ¬ s.radio.Dead) (halive' : ¬ s'.radio.Dead) (houts : exits outs = 0) :
    Detects s' (log ++ outs) := detects_silent h (iff_of_false halive' halive) houts

/-- **A step** shows the failure when it is the one by which both loops have failed. -/
theorem detects_step (he : Ended s.radio) (h : Detects s log) (hheard : ¬ EndsUnheard s i) :
    Detects ((connecting ser).step s i).1 (log ++ ((connecting ser).step s i).2) := by
  have hmove := @radio_move ser s i
  generalize (connecting ser).step s i = r at hmove ⊢
  cases hmove with
  | framed r hf => exact detects_silent h (by rw [hf.1]) (exits_silent hf.2)
  | discoveryOk n hs hi =>
    exact detects_alive h (alive_of_discovery he hs) (fun hd => nomatch hd.1) rfl
  | discoveryOff n hs hi =>
    exact detects_alive h (alive_of_discovery he hs) (fun hd => alive_of_discovery he hs hd) rfl
  | discoveryBusy n hs hi =>
    exact detects_alive h (alive_of_discovery he hs) (fun hd => alive_of_discovery he hs hd) rfl
  | discoveryFailed n r hs hi hr =>
    refine detects_alive h (alive_of_discovery he hs) (fun hd => ?_) rfl
    exact hheard ⟨r, n, hi, hs, hr.1, hr.2.1, hr.2.2, hd.2⟩
  | discoveryRetried n hs hi hn =>
    exact detects_alive h (alive_of_discovery he hs) (fun hd => alive_of_discovery he hs hd) rfl
  | discoveryGivenUp hs hi s' hs' => exact detects_fatal h (alive_of_discovery he hs)
  | listeningOk n hs hi =>
    exact detects_alive h (alive_of_listen he hs) (fun hd => nomatch hd.2) rfl
  | listeningOff n hs hi =>
    exact detects_alive h (alive_of_listen he hs) (fun hd => alive_of_listen he hs hd) rfl
  | listeningDeclined n hs hi s' hs' => exact detects_fatal h (alive_of_listen he hs)
  | listeningBusy n r hs hi hr =>
    exact detects_alive h (alive_of_listen he hs) (fun hd => alive_of_listen he hs hd) rfl
  | listeningRetried n hs hi hn =>
    exact detects_alive h (alive_of_listen he hs) (fun hd => alive_of_listen he hs hd) rfl
  | listeningGivenUp hs hi s' hs' => exact detects_fatal h (alive_of_listen he hs)

/-- A failure that ends unheard is not shown. -/
theorem not_detects_unheard (he : Ended s.radio) (h : Detects s log) (hunheard : EndsUnheard s i) :
    ¬ Detects ((connecting ser).step s i).1 (log ++ ((connecting ser).step s i).2) := by
  obtain ⟨r, n, rfl, hs, hok, hoff, hbusy, hlistening⟩ := hunheard
  have hstep : (connecting ser).step s (.resume (.discovery r)) =
      ({ s with discovering := some false, discovery := none }, []) := by
    show s.resume ser (.discovery r) = _
    unfold StateConnecting.resume
    dsimp only
    rw [hs]
    unfold StateConnecting.onDiscoveryAnswer
    cases r with
    | ok => exact absurd rfl hok
    | bluetoothOff => exact absurd rfl hoff
    | invalidState => exact absurd rfl hbusy
    | _ => rfl
  intro hd
  have hshown := h.shown
  rw [if_neg (alive_of_discovery he hs)] at hshown
  have hshown' := hd.shown
  rw [hstep, List.append_nil, hshown, if_pos ⟨rfl, hlistening⟩] at hshown'
  exact nomatch hshown'

/-- What the constructor leaves. -/
theorem ended_construct : Ended StateConnecting.construct.1.radio := ⟨nofun, nofun⟩

theorem detects_construct : Detects StateConnecting.construct.1 StateConnecting.construct.2 :=
  ⟨rfl, fun hd => nomatch hd.1⟩

theorem ended_run (is : List ConnectingInput) :
    Ended ((connecting ser).exec StateConnecting.construct.1 is).radio :=
  Machine.invariant (P := fun s : StateConnecting => Ended s.radio) (fun _ i h => ended_step h i)
    ended_construct is

/-- The state and the log of a run of `StateConnecting`. -/
theorem detects_run {is : List ConnectingInput}
    (hheard : (connecting ser).Along (fun s i => ¬ EndsUnheard s i) StateConnecting.construct.1 is) :
    Detects ((connecting ser).exec StateConnecting.construct.1 is)
      (StateConnecting.construct.2 ++ (connecting ser).outs StateConnecting.construct.1 is) := by
  have hboth : Ended ((connecting ser).exec StateConnecting.construct.1 is).radio ∧
      Detects ((connecting ser).exec StateConnecting.construct.1 is)
        (StateConnecting.construct.2 ++ (connecting ser).outs StateConnecting.construct.1 is) :=
    Machine.log_invariant_along (P := fun s log => Ended s.radio ∧ Detects s log)
      (fun s log i hG h => ⟨ended_step h.1 i, detects_step h.1 h.2 hG⟩) hheard
      ⟨ended_construct, detects_construct⟩
  exact hboth.2

/-- **The fatal failure is detected** at every point of a run of `StateConnecting` exactly when
    discovery never ends in an answer behind the failure of listening. -/
theorem fatal_failure_detected_iff (ser : ISerializer) (is : List ConnectingInput) :
    (∀ is₁, is₁ <+: is → Detects ((connecting ser).exec StateConnecting.construct.1 is₁)
      (StateConnecting.construct.2 ++ (connecting ser).outs StateConnecting.construct.1 is₁)) ↔
    (connecting ser).Along (fun s i => ¬ EndsUnheard s i) StateConnecting.construct.1 is := by
  constructor
  · intro h
    refine Machine.along_of_split _ fun is₁ i is₂ hsplit hunheard => ?_
    have hafter := h (is₁ ++ [i]) ⟨is₂, by rw [hsplit, List.append_assoc]; rfl⟩
    rw [Machine.exec_snoc, Machine.outs_snoc, ← List.append_assoc] at hafter
    exact not_detects_unheard (ended_run is₁) (h is₁ ⟨i :: is₂, hsplit.symm⟩) hunheard hafter
  · rintro h is₁ ⟨is₂, rfl⟩
    exact detects_run ((Machine.along_append _).mp h).1

/-- **Listening is declined first, and then there is no adapter**: both have failed, and nothing is
    shown. -/
theorem fatal_failure_detected_fails : ¬ Detects
    ((connecting (xmlSerializer walkAsIs)).exec StateConnecting.construct.1
      [.resume (.listening .userDeclined), .resume (.discovery .noBtAdapter)])
    (StateConnecting.construct.2 ++ (connecting (xmlSerializer walkAsIs)).outs
      StateConnecting.construct.1
      [.resume (.listening .userDeclined), .resume (.discovery .noBtAdapter)]) := by
  intro h
  exact nomatch (show 0 = 1 from h.shown)

end Failure

end Veridie.Fsm
