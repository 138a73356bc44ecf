/-
  File:      Veridie/Fsm/Returns.lean
  Subject:   Whether a handler returns. A command that is refused answers `INTEROP_FAILURE` without
             suspending, so the coroutine that awaits it runs on and may issue the next one.

  * `Handling`, `Handling.Step` -- a handler under way: the commands it has issued are entered into
    the table of the command manager or refused, as the invokers and the table decide;
  * `Returns` -- only so many commands are issued before it returns, whatever they decide;
  * `Handling.load` -- what each refusal lowers: the commands to decide and the retries left;
  * `every_handler_returns_iff` -- the handlers of a run return exactly when none of them starts or
    repeats `DisconnectDevice` of `StateNegotiating`, whose loop alone has no end.
-/
import Veridie.Fsm.Closing
import Veridie.Fsm.Offers
import Veridie.Lib.Descent
import Veridie.Sign.Manager

namespace Veridie.Sign

/-! ## 1. Commands -/

/-- The number in `COMMAND_ID`, from 100 on. -/
def Cmd.number : Cmd → Fin 16
  | startListening => 0
  | startDiscovery => 1
  | stopListening => 2
  | stopDiscovery => 3
  | closeConnection _ _ => 4
  | enableBluetooth => 5
  | negotiationStart => 6
  | negotiationStop _ => 7
  | sendMessage _ _ => 8
  | sendLongMessage _ _ => 8
  | showAndExit _ => 9
  | showToast _ _ => 10
  | showRequest _ _ _ _ => 12
  | showResponse _ _ _ _ => 13
  | showLongResponse _ _ _ _ => 13
  | resetGame => 14
  | resetConnections => 15

/-- `UiDictionary` and `BtDictionary`. -/
def Cmd.service : Cmd → Service
  | negotiationStart | negotiationStop _ | showAndExit _ | showToast _ _ => .ui
  | showRequest _ _ _ _ | showResponse _ _ _ _ | showLongResponse _ _ _ _ | resetGame => .ui
  | _ => .bt

/-- The command as the manager sees it. -/
def Cmd.icommand (cmd : Cmd) : ICommand where
  id := (100 + cmd.number.val : Nat) * 256
  aligned := by omega
  ge := by omega
  lt := by omega

/-- A `Command` that is issued; what the invoker answers is free. -/
def Cmd.issue (cmd : Cmd) (accepts : Bool) : Issue := ⟨cmd.service, cmd.icommand, accepts, true⟩

end Veridie.Sign

namespace Veridie.Fsm

open Veridie.Lib Veridie.Dice Veridie.Sign

/-! ## 2. Coroutines -/

/-- The answer a coroutine is resumed with. -/
def Resume.answer : Resume → Option ResponseCode
  | .idle (.enable r) => some r
  | .connecting (.discovery r) | .connecting (.listening r) => some r
  | .connecting (.hello _ r) | .connecting (.close _ r) => some r
  | .negotiating (.start r) | .negotiating (.send _ r) | .negotiating (.close _ r) => some r
  | .playing (.send _ _ r) | .playing (.show _ r) => some r
  | _ => none

/-- The command of a `ShowRequest` or `ShowResponse`. -/
def ShowTask.Awaits (cmd : Cmd) : ShowTask → Prop
  | request => ∃ type size threshold name, cmd = .showRequest type size threshold name
  | response => ∃ cast type count name, cmd = .showResponse cast type count name ∨
      cmd = .showLongResponse cast type count name

/-- The coroutine waits for the answer of the command. -/
def FsmState.Awaits (cmd : Cmd) : FsmState → Resume → Prop
  | idle s, .idle (.enable _) => s.enableBtTask = some .asking ∧ cmd = .enableBluetooth
  | connecting s, .connecting (.discovery _) =>
    (∃ n, s.discovery = some (.asking n)) ∧ cmd = .startDiscovery
  | connecting s, .connecting (.listening _) =>
    (∃ n, s.listen = some (.asking n)) ∧ cmd = .startListening
  | connecting s, .connecting (.hello i _) => ∃ task, s.hellos[i]? = some task ∧
      if task.closing then cmd = .closeConnection [] task.mac
      else ∃ message, cmd = .sendMessage message task.mac
  | connecting s, .connecting (.close i _) => ∃ mac, s.closes[i]? = some mac ∧
      cmd = .closeConnection [] mac
  | negotiating s, .negotiating (.start _) => s.task = .starting ∧ cmd = .negotiationStart
  | negotiating s, .negotiating (.send i _) => ∃ task, s.sends[i]? = some task ∧
      if task.closing then cmd = .closeConnection [] task.receiver.mac
      else ∃ message, cmd = .sendMessage message task.receiver.mac
  | negotiating s, .negotiating (.close i _) => ∃ mac, s.closes[i]? = some mac ∧
      cmd = .closeConnection [] mac
  | playing s, .playing (.send mac i _) => ∃ m message n parent, s.managers.find? mac = some m ∧
      m.st.tasks[i]? = some (.sending message n parent) ∧ cmd = sendCommand message mac
  | playing s, .playing (.show i _) => ∃ task, s.shows[i]? = some task ∧ task.Awaits cmd
  | _, _ => False

/-- `SendMessage` to the receiver. -/
def sendsTo (mac : Str) : Cmd → Bool
  | .sendMessage _ mac' => mac' = mac
  | _ => false

def KickOffTask.isAsking : KickOffTask → Bool
  | asking _ => true
  | waiting _ => false

def ShowTask.awaits : ShowTask → Cmd → Bool
  | request, .showRequest _ _ _ _ => true
  | response, .showResponse _ _ _ _ | response, .showLongResponse _ _ _ _ => true
  | _, _ => false

/-- The same, to be computed. -/
def FsmState.awaits (cmd : Cmd) : FsmState → Resume → Bool
  | idle s, .idle (.enable _) => s.enableBtTask = some .asking && cmd = .enableBluetooth
  | connecting s, .connecting (.discovery _) =>
    s.discovery.any KickOffTask.isAsking && cmd = .startDiscovery
  | connecting s, .connecting (.listening _) =>
    s.listen.any KickOffTask.isAsking && cmd = .startListening
  | connecting s, .connecting (.hello i _) => s.hellos[i]?.any fun task =>
      if task.closing then cmd = .closeConnection [] task.mac else sendsTo task.mac cmd
  | connecting s, .connecting (.close i _) => s.closes[i]?.any fun mac => cmd = .closeConnection [] mac
  | negotiating s, .negotiating (.start _) => s.task = .starting && cmd = .negotiationStart
  | negotiating s, .negotiating (.send i _) => s.sends[i]?.any fun task =>
      if task.closing then cmd = .closeConnection [] task.receiver.mac
      else sendsTo task.receiver.mac cmd
  | negotiating s, .negotiating (.close i _) => s.closes[i]?.any fun mac =>
      cmd = .closeConnection [] mac
  | playing s, .playing (.send mac i _) => (s.managers.find? mac).any fun m =>
      m.st.tasks[i]?.any fun
        | .sending message _ _ => cmd = sendCommand message mac
        | .waiting _ => false
  | playing s, .playing (.show i _) => s.shows[i]?.any fun task => task.awaits cmd
  | _, _ => false

theorem sendsTo_iff {mac : Str} {cmd : Cmd} :
    sendsTo mac cmd = true ↔ ∃ message, cmd = .sendMessage message mac := by
  cases cmd with
  | sendMessage message mac' =>
    constructor
    · intro h
      exact ⟨message, by rw [of_decide_eq_true h]⟩
    · intro h
      obtain ⟨_, h⟩ := h
      cases h
      exact decide_eq_true rfl
  | _ =>
    refine ⟨fun h => absurd h Bool.false_ne_true, fun h => ?_⟩
    obtain ⟨_, h⟩ := h
    cases h

theorem any_isAsking {task : Option KickOffTask} :
    task.any KickOffTask.isAsking = true ↔ ∃ n, task = some (.asking n) := by
  cases task with
  | none => exact ⟨fun h => absurd h Bool.false_ne_true, fun ⟨_, h⟩ => nomatch h⟩
  | some task =>
    cases task with
    | asking n => exact ⟨fun _ => ⟨n, rfl⟩, fun _ => rfl⟩
    | waiting n =>
      refine ⟨fun h => absurd h Bool.false_ne_true, fun h => ?_⟩
      obtain ⟨_, h⟩ := h
      cases h

theorem ShowTask.awaits_iff {cmd : Cmd} (task : ShowTask) :
    task.awaits cmd = true ↔ task.Awaits cmd := by
  cases task with
  | request =>
    cases cmd <;> simp [ShowTask.awaits, ShowTask.Awaits]
  | response =>
    cases cmd <;> simp [ShowTask.awaits, ShowTask.Awaits]

theorem any_iff {γ : Type} {o : Option γ} {p : γ → Bool} {q : γ → Prop}
    (h : ∀ x, p x = true ↔ q x) : o.any p = true ↔ ∃ x, o = some x ∧ q x :=
  (Option.any_eq_true p o).trans (exists_congr fun x => and_congr_right fun _ => h x)

theorem FsmState.awaits_iff {cmd : Cmd} {s : FsmState} {i : Resume} :
    s.awaits cmd i = true ↔ s.Awaits cmd i := by
  have hnone : ∀ {p : Prop}, p = False → (false = true ↔ p) := fun h =>
    ⟨fun hf => absurd hf Bool.false_ne_true, fun hp => (h ▸ hp).elim⟩
  have hand : ∀ {b : Bool} {p : Prop} {c d : Cmd}, (b = true ↔ p) →
      ((b && decide (c = d)) = true ↔ p ∧ c = d) := fun h =>
    (Bool.and_eq_true_iff).trans (and_congr h decide_eq_true_iff)
  have hclosing : ∀ {closing : Bool} {mac : Str},
      (if closing then decide (cmd = .closeConnection [] mac) else sendsTo mac cmd) = true ↔
        if closing then cmd = .closeConnection [] mac else ∃ message, cmd = .sendMessage message mac := by
    intro closing mac
    cases closing with
    | true => exact decide_eq_true_iff
    | false => exact sendsTo_iff
  cases s with
  | idle s =>
    cases i with
    | idle i =>
      cases i with
      | enable r => exact hand decide_eq_true_iff
      | tick => exact hnone rfl
    | _ => exact hnone rfl
  | connecting s =>
    cases i with
    | connecting i =>
      cases i with
      | discovery r => exact hand any_isAsking
      | listening r => exact hand any_isAsking
      | hello i r => exact any_iff fun _ => hclosing
      | close i r => exact any_iff fun _ => decide_eq_true_iff
      | _ => exact hnone rfl
    | _ => exact hnone rfl
  | negotiating s =>
    cases i with
    | negotiating i =>
      cases i with
      | start r => exact hand decide_eq_true_iff
      | send i r => exact any_iff fun _ => hclosing
      | close i r => exact any_iff fun _ => decide_eq_true_iff
      | _ => exact hnone rfl
    | _ => exact hnone rfl
  | playing s =>
    cases i with
    | playing i =>
      cases i with
      | send mac i r =>
        constructor
        · intro h
          obtain ⟨m, hm, h⟩ := (any_iff fun _ => Iff.rfl).mp h
          obtain ⟨task, htask, h⟩ := (any_iff fun _ => Iff.rfl).mp h
          cases task with
          | sending message n parent => exact ⟨m, message, n, parent, hm, htask, of_decide_eq_true h⟩
          | waiting task => cases h
        · intro h
          obtain ⟨m, message, n, parent, hm, htask, h⟩ := h
          exact (any_iff fun _ => Iff.rfl).mpr
            ⟨m, hm, (any_iff fun _ => Iff.rfl).mpr ⟨_, htask, decide_eq_true h⟩⟩
      | «show» i r => exact any_iff fun task => task.awaits_iff
      | _ => exact hnone rfl
    | _ => exact hnone rfl

/-! ## 3. A handler under way -/

/-- The controller, the command manager, and the commands that are to be decided: those awaited that
    the handler has issued. -/
structure Handling where
  controller : Controller
  manager : Manager
  pending : List Cmd

/-- One command is decided: it is entered into the table, and its coroutine waits; or the table or the
    invoker refuses it, and its coroutine runs on with `INTEROP_FAILURE`. -/
inductive Handling.Step (ser : ISerializer) (h : Handling) : Handling → Prop where
  | entered (cmd : Cmd) (accepts : Bool) (hcmd : cmd ∈ h.pending)
      (hid : (h.manager.issueCommand (cmd.issue accepts)).2.1 ≠ invalidCmdId) :
      Step ser h ⟨h.controller, (h.manager.perform (cmd.issue accepts)).1, h.pending.erase cmd⟩
  | refused (cmd : Cmd) (accepts : Bool) (s : FsmState) (i : Resume) (hcmd : cmd ∈ h.pending)
      (hid : (h.manager.issueCommand (cmd.issue accepts)).2.1 = invalidCmdId)
      (hs : h.controller.state = some s) (hi : s.Awaits cmd i)
      (hr : i.answer = some .interopFailure) :
      Step ser h ⟨(h.controller.handle ser (.resume i)).1,
        (h.manager.perform (cmd.issue accepts)).1,
        h.pending.erase cmd ++ awaited (s.resume ser h.controller.round i).2.2⟩

/-- The outputs of a step. -/
def didOuts (log : List Trace) : List Out := log.filterMap fun
  | .did o => some o
  | .installed _ => none

/-- A handler that has just done its own part. -/
def Controller.handling (ser : ISerializer) (c : Controller) (m : Manager) (i : ControllerInput) :
    Handling :=
  ⟨((controller ser).step c i).1, m, awaited (didOuts ((controller ser).step c i).2)⟩

/-- The handler of the input returns: it issues so many commands at most, whatever becomes of them. -/
def Returns (ser : ISerializer) (c : Controller) (m : Manager) (i : ControllerInput) : Prop :=
  Bounded (Handling.Step ser) (c.handling ser m i)

/-- The input makes `StateNegotiating` issue the command of a `DisconnectDevice`. -/
def StateNegotiating.Disconnecting (s : StateNegotiating) : NegotiatingInput → Prop
  | .event (.socketReadFailure transmitter) => transmitter.mac ∈ s.peers.keys
  | .resume (.send i r) => ∃ task, s.sends[i]? = some task ∧
      if task.closing then Negotiation.closeAgain r = true else r = .socketError
  | .resume (.close i r) => i < s.closes.length ∧ Negotiation.closeAgain r = true
  | _ => False

/-- No device is disconnected by `StateNegotiating`. -/
def DisconnectsNone (_ : UInt32) (s : FsmState) (i : ControllerInput) : Prop :=
  ∀ n j, s = .negotiating n → i.negotiating? = some j → ¬ n.Disconnecting j

theorem didOuts_map (outs : List Out) : didOuts (outs.map .did) = outs := by
  unfold didOuts
  rw [List.filterMap_map]
  exact List.filterMap_some

theorem mem_didOuts {o : Out} {log : List Trace} : o ∈ didOuts log ↔ .did o ∈ log := by
  unfold didOuts
  rw [List.mem_filterMap]
  constructor
  · rintro ⟨e, he, h⟩
    split at h
    · cases h
      exact he
    · exact nomatch h
  · exact fun h => ⟨_, h, rfl⟩

/-! ## 4. Retries -/

/-- The retries a coroutine has left. -/
def PeerTask.retries : PeerTask → Nat
  | sending _ retriesLeft _ => retriesLeft
  | waiting _ => 0

/-- Those of the coroutines of a manager. -/
def PeerState.retries (p : PeerState) : Nat := (p.tasks.map PeerTask.retries).sum

/-- Those of the coroutines of a state that count them down without a timer in between. -/
def FsmState.retries : FsmState → Nat
  | playing s => (s.managers.elems.map fun m => m.st.retries).sum
  | _ => 0

theorem retries_finish (p : PeerState) (parent : Option RequestTask) :
    (p.finish parent).retries = p.retries := by
  cases parent with
  | none => rfl
  | some task => simp [PeerState.finish, PeerState.retries, PeerTask.retries]

/-- The end of the loop of `Send` lowers the counter before it issues a command. -/
theorem retries_retry (p : PeerState) (mac message : Str) (n : Nat) (parent : Option RequestTask) :
    (awaited (p.retry mac message n parent).2).length + (p.retry mac message n parent).1.retries ≤
      n + p.retries := by
  unfold PeerState.retry
  split
  · rename_i hleft
    have hone : (awaited [.issue (sendCommand message mac)]).length ≤ 1 := List.length_filterMap_le _ _
    have hsum : PeerState.retries
        { p with tasks := p.tasks ++ [.sending message (n - 1) parent] } = p.retries + (n - 1) := by
      simp [PeerState.retries, PeerTask.retries]
    dsimp only
    rw [hsum]
    omega
  · rw [retries_finish]
    exact Nat.add_le_add_right (Nat.zero_le n) _

/-- A refused `Send` has one retry less, or ends. -/
theorem retries_failed {p : PeerState} {i n : Nat} {message : Str} {parent : Option RequestTask}
    (h : p.tasks[i]? = some (.sending message n parent)) (mac : Str) (isGenerator : Bool) :
    (awaited (p.onSendAnswer mac isGenerator i .interopFailure).outs).length +
        (p.onSendAnswer mac isGenerator i .interopFailure).st.retries ≤ p.retries ∧
      (p.onSendAnswer mac isGenerator i .interopFailure).renegotiate = false := by
  have hsum : n + PeerState.retries { p with tasks := p.tasks.eraseIdx i } = p.retries := by
    obtain ⟨hlt, hi⟩ := List.getElem?_eq_some_iff.mp h
    have hperm := ((List.getElem_cons_eraseIdx_perm hlt).map PeerTask.retries).sum_eq
    rw [hi] at hperm
    exact hperm
  unfold PeerState.onSendAnswer
  rw [h, ← hsum]
  exact ⟨retries_retry _ mac message n parent, rfl⟩

theorem retries_setPeer {s : StatePlaying} {mac : Str} {m : RemotePeerManager}
    (h : s.managers.find? mac = some m) (st : PeerState) :
    (FsmState.playing (s.setPeer mac st)).retries + m.st.retries =
      (FsmState.playing s).retries + st.retries :=
  KeySet.sum_adjust (fun m' : RemotePeerManager => { m' with st := st }) (fun _ => rfl) h
    fun m => m.st.retries

/-! ## 5. Refused commands -/

section Refused

variable {ser : ISerializer} {round : UInt32} {cmd : Cmd}

/-- What a refusal leads to: no more commands than retries are used up. -/
def Lowers (s : FsmState) (r : FsmState × UInt32 × List Out) : Prop :=
  (awaited r.2.2).length + r.1.retries ≤ s.retries

theorem idle_refused {s : StateIdle} {i : Resume} (h : (FsmState.idle s).Awaits cmd i)
    (hr : i.answer = some .interopFailure) :
    Lowers (.idle s) ((FsmState.idle s).resume ser round i) := by
  cases i with
  | idle i =>
    cases i with
    | enable r =>
      cases hr
      obtain ⟨htask, _⟩ := h
      show (awaited (s.resume (.enable .interopFailure)).2).length + 0 ≤ 0
      unfold StateIdle.resume
      rw [htask]
      exact Nat.le_refl 0
    | tick => exact h.elim
  | _ => exact h.elim

theorem connecting_refused {s : StateConnecting} {i : Resume}
    (h : (FsmState.connecting s).Awaits cmd i) (hr : i.answer = some .interopFailure) :
    Lowers (.connecting s) ((FsmState.connecting s).resume ser round i) := by
  cases i with
  | connecting i =>
    show (awaited (s.resume ser i).2).length + 0 ≤ 0
    cases i with
    | discovery r =>
      cases hr
      obtain ⟨⟨n, hn⟩, _⟩ := h
      unfold StateConnecting.resume
      dsimp only
      rw [hn]
      exact Nat.le_refl 0
    | listening r =>
      cases hr
      obtain ⟨⟨n, hn⟩, _⟩ := h
      unfold StateConnecting.resume
      dsimp only
      rw [hn]
      exact Nat.le_refl 0
    | hello i r =>
      cases hr
      obtain ⟨task, htask, _⟩ := h
      show (awaited (s.onHelloAnswer ser i .interopFailure).2).length + 0 ≤ 0
      unfold StateConnecting.onHelloAnswer
      rw [htask]
      dsimp only
      split <;> exact Nat.le_refl 0
    | close i r =>
      cases hr
      obtain ⟨mac, hmac, _⟩ := h
      show (awaited (s.onCloseAnswer i .interopFailure).2).length + 0 ≤ 0
      unfold StateConnecting.onCloseAnswer
      rw [hmac]
      exact Nat.le_refl 0
    | _ => exact h.elim
  | _ => exact h.elim

theorem playing_refused {s : StatePlaying} {i : Resume} (h : (FsmState.playing s).Awaits cmd i)
    (hr : i.answer = some .interopFailure) :
    Lowers (.playing s) ((FsmState.playing s).resume ser round i) := by
  cases i with
  | playing i =>
    cases i with
    | send mac i r =>
      cases hr
      obtain ⟨m, message, n, parent, hm, hi, _⟩ := h
      obtain ⟨hle, hnone⟩ := retries_failed hi m.mac m.isGenerator
      have hsum := retries_setPeer hm (m.st.onSendAnswer m.mac m.isGenerator i .interopFailure).st
      show (awaited (s.onPeer mac _).2).length + (FsmState.playing (s.onPeer mac _).1).retries ≤ _
      unfold StatePlaying.onPeer
      rw [hm]
      dsimp only
      rw [hnone, if_neg Bool.false_ne_true, List.append_nil]
      omega
    | «show» i r =>
      cases hr
      obtain ⟨task, htask, _⟩ := h
      show (awaited (s.onShowAnswer i .interopFailure).2).length +
        ((s.onShowAnswer i .interopFailure).1.managers.elems.map fun m => m.st.retries).sum ≤ _
      unfold StatePlaying.onShowAnswer
      rw [htask]
      exact Nat.le_of_eq (Nat.zero_add _)
    | _ => exact h.elim
  | _ => exact h.elim

/-- In `StateNegotiating` the same holds of everything but `DisconnectDevice`. -/
theorem negotiating_refused {s : StateNegotiating} {i : Resume}
    (h : (FsmState.negotiating s).Awaits cmd i) (hr : i.answer = some .interopFailure)
    (hcmd : ∀ text mac, cmd ≠ .closeConnection text mac) :
    awaited ((FsmState.negotiating s).resume ser round i).2.2 = [] := by
  cases i with
  | negotiating i =>
    show awaited (Negotiation.resume ser ⟨round, s⟩ i).2 = []
    cases i with
    | start r =>
      cases hr
      show awaited (if s.task = .starting then _ else _ : Negotiation × List Out).2 = []
      rw [if_pos h.1]
      rfl
    | tick => exact h.elim
    | send i r =>
      cases hr
      obtain ⟨task, htask, hopen⟩ := h
      show awaited (Negotiation.onSendAnswer ⟨round, s⟩ i .interopFailure).2 = []
      unfold Negotiation.onSendAnswer
      rw [htask]
      dsimp only
      split at hopen
      · exact absurd hopen (hcmd _ _)
      · rename_i hclosing
        rw [if_neg hclosing]
        rfl
    | close i r =>
      obtain ⟨mac, _, hclose⟩ := h
      exact absurd hclose (hcmd _ _)
  | _ => exact h.elim

/-- A refused command that is not one of `DisconnectDevice` of `StateNegotiating`. -/
theorem state_refused {s : FsmState} {i : Resume} (h : s.Awaits cmd i)
    (hr : i.answer = some .interopFailure)
    (hcmd : s.kind = .negotiating → ∀ text mac, cmd ≠ .closeConnection text mac) :
    Lowers s (s.resume ser round i) ∧
      (s.kind = .negotiating → awaited (s.resume ser round i).2.2 = []) := by
  cases s with
  | idle s => exact ⟨idle_refused h hr, nofun⟩
  | connecting s => exact ⟨connecting_refused h hr, nofun⟩
  | playing s => exact ⟨playing_refused h hr, nofun⟩
  | negotiating s =>
    have hnil : awaited ((FsmState.negotiating s).resume ser round i).2.2 = [] :=
      negotiating_refused h hr (hcmd rfl)
    have hkind : ((FsmState.negotiating s).resume ser round i).1.kind = .negotiating :=
      handle_kind ser round (.negotiating s) (.resume i)
    refine ⟨?_, fun _ => hnil⟩
    unfold Lowers
    rw [hnil]
    cases hs' : ((FsmState.negotiating s).resume ser round i).1 with
    | negotiating s' => exact Nat.le_refl 0
    | _ =>
      rw [hs'] at hkind
      exact nomatch hkind

end Refused

/-! ## 6. Handlers that return -/

/-- The retries of the state there is. -/
def Controller.retries (c : Controller) : Nat :=
  match c.state with
  | some s => s.retries
  | none => 0

/-- What every decision lowers: the commands to decide and the retries left. -/
def Handling.load (h : Handling) : Nat := h.pending.length + h.controller.retries

/-- `StateNegotiating` has no connection to close. -/
def Handling.ClosesNone (h : Handling) : Prop :=
  ∀ s, h.controller.state = some s → s.kind = .negotiating →
    ∀ cmd ∈ h.pending, ∀ text mac, cmd ≠ .closeConnection text mac

section Handling

variable {ser : ISerializer} {c : Controller} {m : Manager} {i : ControllerInput}

theorem handle_resume {s : FsmState} (hs : c.state = some s) (i : Resume) :
    (c.handle ser (.resume i)).1 = c.absorb (s.resume ser c.round i) := by
  unfold Controller.handle
  rw [hs]
  rfl

/-- **A decision lowers the load**. -/
theorem step_lowers {h h' : Handling} (hnone : h.ClosesNone) (hstep : Handling.Step ser h h') :
    h'.ClosesNone ∧ h'.load < h.load := by
  cases hstep with
  | entered cmd accepts hcmd hid =>
    refine ⟨fun s hs hk cmd' hm => hnone s hs hk cmd' (List.mem_of_mem_erase hm), ?_⟩
    have hlength := List.length_erase_of_mem hcmd
    have hpos := List.length_pos_of_mem hcmd
    show (h.pending.erase cmd).length + h.controller.retries < h.pending.length + _
    omega
  | refused cmd accepts s i hcmd hid hs hi hr =>
    obtain ⟨hlowers, hquiet⟩ := @state_refused ser h.controller.round cmd s i hi hr
      fun hk => hnone s hs hk cmd hcmd
    have hkind : (s.resume ser h.controller.round i).1.kind = s.kind :=
      handle_kind ser h.controller.round s (.resume i)
    have hctrl := @handle_resume ser _ s hs i
    constructor
    · intro s' hs' hk cmd' hm
      rw [hctrl] at hs'
      cases Option.some.inj hs'
      have hneg := hkind.symm.trans hk
      rw [hquiet hneg, List.append_nil] at hm
      exact hnone s hs hneg cmd' (List.mem_of_mem_erase hm)
    · have hlength := List.length_erase_of_mem hcmd
      have hpos := List.length_pos_of_mem hcmd
      have hold : h.controller.retries = s.retries := by
        unfold Controller.retries
        rw [hs]
      have hnew : ((h.controller.handle ser (.resume i)).1).retries =
          (s.resume ser h.controller.round i).1.retries := by
        rw [hctrl]
        rfl
      unfold Lowers at hlowers
      show (h.pending.erase cmd ++ _).length + _ < h.pending.length + _
      rw [List.length_append, hold, hnew]
      omega

/-- **A handler that closes none returns.** -/
theorem returns_of_closesNone (h : (c.handling ser m i).ClosesNone) : Returns ser c m i :=
  bounded_of_measure Handling.load (fun _ _ hn hs => step_lowers hn hs) h

/-! ## 7. Handlers that do not -/

/-- A `DisconnectDevice` of the state waits for its command. -/
def StateNegotiating.Closing (s : StateNegotiating) (mac : Str) : NegotiatingResume → Prop
  | .send k r => r = .interopFailure ∧
      ∃ task, s.sends[k]? = some task ∧ task.closing = true ∧ task.receiver.mac = mac
  | .close k r => r = .interopFailure ∧ s.closes[k]? = some mac
  | _ => False

/-- A refused `DisconnectDevice` is where it was, and has issued its command again. -/
theorem closing_again {n : Negotiation} {mac : Str} {i : NegotiatingResume}
    (h : n.state.Closing mac i) : n.resume ser i = (n, [.issue (.closeConnection [] mac)]) := by
  cases i with
  | start r => exact h.elim
  | tick => exact h.elim
  | send k r =>
    obtain ⟨rfl, task, htask, hclosing, rfl⟩ := h
    show n.onSendAnswer k .interopFailure = _
    unfold Negotiation.onSendAnswer
    rw [htask]
    dsimp only
    rw [if_pos hclosing]
    rfl
  | close k r =>
    obtain ⟨rfl, hmac⟩ := h
    show n.onCloseAnswer k .interopFailure = _
    unfold Negotiation.onCloseAnswer
    rw [hmac]
    rfl

theorem StateNegotiating.Closing.awaits {s : StateNegotiating} {mac : Str} {i : NegotiatingResume}
    (h : s.Closing mac i) : (FsmState.negotiating s).Awaits (.closeConnection [] mac) (.negotiating i) ∧
      (Resume.negotiating i).answer = some .interopFailure := by
  cases i with
  | start r => exact h.elim
  | tick => exact h.elim
  | send k r =>
    obtain ⟨rfl, task, htask, hclosing, rfl⟩ := h
    refine ⟨⟨task, htask, ?_⟩, rfl⟩
    rw [if_pos hclosing]
  | close k r =>
    obtain ⟨rfl, hmac⟩ := h
    exact ⟨⟨mac, hmac, rfl⟩, rfl⟩

/-- What a refusing invoker keeps up. -/
def Handling.Spins (h : Handling) : Prop := ∃ s mac i, h.controller.state = some (.negotiating s) ∧
  s.Closing mac i ∧ .closeConnection [] mac ∈ h.pending

/-- **A refused `DisconnectDevice`** of `StateNegotiating` is refused again. -/
theorem spins_step {h : Handling} (hspins : h.Spins) : ∃ h', Handling.Step ser h h' ∧ h'.Spins := by
  obtain ⟨s, mac, i, hs, hclosing, hcmd⟩ := hspins
  have hresume : (FsmState.negotiating s).resume ser h.controller.round (.negotiating i) =
      (.negotiating s, h.controller.round, [.issue (.closeConnection [] mac)]) := by
    show (FsmState.negotiating (Negotiation.resume ser ⟨h.controller.round, s⟩ i).1.state,
      (Negotiation.resume ser ⟨h.controller.round, s⟩ i).1.round,
      (Negotiation.resume ser ⟨h.controller.round, s⟩ i).2) = _
    rw [@closing_again ser ⟨h.controller.round, s⟩ mac i hclosing]
  obtain ⟨hawaits, hanswer⟩ := hclosing.awaits
  refine ⟨_, .refused (.closeConnection [] mac) false (.negotiating s) (.negotiating i) hcmd
    ((issueCommand_refused_iff _ _).mpr (Or.inr rfl)) hs hawaits hanswer, s, mac, i, ?_, hclosing,
    ?_⟩
  · rw [handle_resume hs, hresume]
    rfl
  · rw [hresume]
    exact List.mem_append_right _ (List.mem_singleton.mpr rfl)

/-- **A handler that starts one does not return**, when every command is refused. -/
theorem not_returns_of_spins (h : (c.handling ser m i).Spins) : ¬ Returns ser c m i :=
  not_bounded_of_loop (fun _ hs => spins_step hs) h

/-- A `DisconnectDevice` that is started or repeated waits for its command. -/
theorem disconnecting_closes {n : Negotiation} {j : NegotiatingInput} (h : n.state.Disconnecting j) :
    ∃ mac i, ((negotiating ser).step n j).1.state.Closing mac i ∧
      .issue (.closeConnection [] mac) ∈ ((negotiating ser).step n j).2 := by
  cases j with
  | event e =>
    cases e with
    | socketReadFailure transmitter =>
      have hlast : (n.state.closes ++ [transmitter.mac])[n.state.closes.length]? =
          some transmitter.mac := List.getElem?_concat_length
      refine ⟨transmitter.mac, .close n.state.closes.length .interopFailure, ?_⟩
      show StateNegotiating.Closing (n.onSocketReadFailure transmitter.mac).1.state _ _ ∧
        _ ∈ (n.onSocketReadFailure transmitter.mac).2
      unfold Negotiation.onSocketReadFailure
      rw [if_pos (show transmitter.mac ∈ n.state.peers.keys from h)]
      exact ⟨⟨rfl, hlast⟩, List.mem_cons_self⟩
    | _ => exact h.elim
  | resume i =>
    cases i with
    | start r => exact h.elim
    | tick => exact h.elim
    | send k r =>
      obtain ⟨task, htask, hcase⟩ := h
      refine ⟨task.receiver.mac, ?_⟩
      show ∃ i, StateNegotiating.Closing (n.onSendAnswer k r).1.state _ i ∧
        _ ∈ (n.onSendAnswer k r).2
      unfold Negotiation.onSendAnswer
      rw [htask]
      dsimp only
      split at hcase
      · rename_i hclosing
        rw [if_pos hclosing, if_pos hcase]
        exact ⟨.send k .interopFailure, ⟨rfl, task, htask, hclosing, rfl⟩, List.mem_singleton.mpr rfl⟩
      · rename_i hopen
        rw [if_neg hopen, hcase]
        have hlast : (n.state.sends.eraseIdx k ++ [{ task with closing := true }])[
            (n.state.sends.eraseIdx k).length]? = some { task with closing := true } :=
          List.getElem?_concat_length
        exact ⟨.send (n.state.sends.eraseIdx k).length .interopFailure, ⟨rfl, _, hlast, rfl, rfl⟩,
          List.mem_singleton.mpr rfl⟩
    | close k r =>
      obtain ⟨hlt, hagain⟩ := h
      have hmac := List.getElem?_eq_getElem hlt
      refine ⟨n.state.closes[k], .close k .interopFailure, ?_⟩
      show StateNegotiating.Closing (n.onCloseAnswer k r).1.state _ _ ∧ _ ∈ (n.onCloseAnswer k r).2
      unfold Negotiation.onCloseAnswer
      rw [hmac]
      dsimp only
      rw [if_pos hagain]
      exact ⟨⟨rfl, hmac⟩, List.mem_singleton.mpr rfl⟩

/-- Nothing else closes a connection. -/
theorem not_disconnecting_closes {n : Negotiation} {j : NegotiatingInput}
    (h : ¬ n.state.Disconnecting j) (text mac : Str) :
    .issue (.closeConnection text mac) ∉ ((negotiating ser).step n j).2 := by
  intro hm
  have hcloses : Disconnected mac ((negotiating ser).step n j).2 := ⟨_, hm, rfl⟩
  cases j with
  | event e =>
    have hon := (negotiating_event_disconnects ser n e id mac).mp hcloses
    cases e with
    | bluetoothOff => simp [negotiating, Negotiation.onEvent] at hm
    | gameStopped => simp [negotiating, Negotiation.onEvent] at hm
    | socketReadFailure transmitter =>
      obtain ⟨rfl, hpeer⟩ := hon
      exact h hpeer
    | _ => exact hon.elim
  | resume i =>
    have hon := (negotiating_disconnects ser n.round n.state (.resume (.negotiating i)) mac).mp hcloses
    cases i with
    | start r => exact hon.elim
    | tick => exact hon.elim
    | send k r =>
      obtain ⟨task, htask, _, hcase⟩ := hon
      exact h ⟨task, htask, hcase⟩
    | close k r =>
      obtain ⟨hmac, hagain⟩ := hon
      exact h ⟨(List.getElem?_eq_some_iff.mp hmac).1, hagain⟩

theorem handling_spins {s : StateNegotiating} {j : NegotiatingInput}
    (hs : c.state = some (.negotiating s)) (hj : i.negotiating? = some j) (h : s.Disconnecting j) :
    (c.handling ser m i).Spins := by
  obtain ⟨mac, k, hclosing, hissued⟩ := @disconnecting_closes ser ⟨c.round, s⟩ j h
  refine ⟨((negotiating ser).step ⟨c.round, s⟩ j).1.state, mac, k, ?_, hclosing, ?_⟩
  · show ((controller ser).step c i).1.state = _
    rw [step_negotiating ser hs hj]
    rfl
  · show _ ∈ awaited (didOuts ((controller ser).step c i).2)
    rw [step_negotiating ser hs hj, didOuts_map, mem_awaited]
    exact ⟨hissued, rfl⟩

/-- The destructors of a game say why they close a connection. -/
theorem destroyed_text {text mac : Str} (h : .issue (.closeConnection text mac) ∈ c.destroyed) :
    text ≠ [] := by
  unfold Controller.destroyed at h
  split at h
  · rename_i s hs
    cases s with
    | connecting s =>
      rcases List.mem_append.mp h with h | h
      · split at h
        · exact nomatch List.mem_singleton.mp h
        · exact absurd h List.not_mem_nil
      · split at h
        · exact nomatch List.mem_singleton.mp h
        · exact absurd h List.not_mem_nil
    | playing s =>
      obtain ⟨mgr, _, h⟩ := List.mem_flatMap.mp h
      unfold RemotePeerManager.destroy at h
      split at h
      · exact absurd h List.not_mem_nil
      · cases List.mem_singleton.mp h
        exact List.cons_ne_nil _ _
    | _ => exact absurd h List.not_mem_nil
  · exact absurd h List.not_mem_nil

theorem handling_closesNone (h : Judged DisconnectsNone c i) :
    (c.handling ser m i).ClosesNone := by
  intro s' hs' hkind cmd hcmd text mac he
  subst he
  obtain ⟨hissued, hawaited⟩ := mem_awaited.mp hcmd
  replace hissued := mem_didOuts.mp hissued
  replace hs' : ((controller ser).step c i).1.state = some s' := hs'
  have hmove := controller_move ser c i
  generalize (controller ser).step c i = r at hmove hissued hs'
  cases hmove with
  | ignored => exact absurd hissued List.not_mem_nil
  | started hi => exact absurd hissued List.not_mem_nil
  | dropped t rest hi hq hk => exact absurd hissued List.not_mem_nil
  | emptied t rest hi hq log hlog => exact nomatch hs'
  | handled s hs hi =>
    cases Option.some.inj hs'
    replace hissued := did_mem_map.mp hissued
    rw [handle_kind] at hkind
    cases s with
    | negotiating s =>
      rw [handle_negotiating] at hissued
      split at hissued
      · rename_i j hj
        exact not_disconnecting_closes (h _ hs s j rfl hj) text mac hissued
      · exact absurd hissued List.not_mem_nil
    | _ => exact nomatch hkind
  | installed t rest r hi hq hr =>
    rcases List.mem_append.mp hissued with hm | hm
    · rcases List.mem_append.mp hm with hm | hm
      · exact destroyed_text (did_mem_map.mp hm) (of_decide_eq_true hawaited)
      · exact construct_disconnected hr ⟨_, did_mem_map.mp hm, rfl⟩
    · exact nomatch List.mem_singleton.mp hm

end Handling

/-- **Every handler of a run returns**, whatever the invokers and the table of the manager make of its
    commands, exactly when no input of the run starts or repeats a `DisconnectDevice` of
    `StateNegotiating`. -/
theorem every_handler_returns_iff (ser : ISerializer) (is : List ControllerInput) :
    (∀ before i behind, is = before ++ i :: behind →
      ∀ m, Returns ser ((controller ser).exec .initial before) m i) ↔
    (controller ser).Along (Judged DisconnectsNone) .initial is := by
  constructor
  · intro h
    refine Machine.along_of_split _ fun before i behind hsplit s hs n j hn hj hdisconnecting => ?_
    subst hn
    exact not_returns_of_spins (handling_spins hs hj hdisconnecting)
      (h before i behind hsplit .init)
  · intro h before i behind hsplit m
    rw [hsplit, Machine.along_append] at h
    exact returns_of_closesNone (handling_closesNone h.2.1)

/-- **A read failure of "B"** while it is negotiated with does not return when every command is
    refused. -/
theorem every_handler_returns_fails : ¬ Returns (xmlSerializer walkAsIs)
    ((controller (xmlSerializer walkAsIs)).exec .initial ((connectB ++ [greetingA]) ++
      [.event .connectivityEstablished id, .fire])) .init (.event (.socketReadFailure deviceB) id) := by
  have hpre : (controller (xmlSerializer walkAsIs)).exec .initial (connectB ++ [greetingA]) =
      ⟨true, some (.connecting { connectedB with localMac := some "A".toList }), [], 0⟩ := by
    rw [Machine.exec_snoc, step_greetingA]
  rw [Machine.exec_append, hpre]
  exact not_returns_of_spins (handling_spins rfl rfl (List.mem_singleton.mpr rfl))

end Veridie.Fsm
